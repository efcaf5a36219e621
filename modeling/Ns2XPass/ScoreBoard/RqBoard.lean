import Ns2XPass.Library.Except
import Ns2XPass.Reassembly.NextHole
import Ns2XPass.Reassembly.Runs

/-! # The scoreboard over a reassembly queue

`ScoreBoardRQ` keeps the blocks that the receiver reports in a reassembly queue
whose `rcv_nxt_` is `sack_min`, the left edge of what may be retransmitted. As
`add` can move it back, the board may ask for data that has arrived. It does not
as long as each block ends above the last cumulative ACK or at data that the
board holds.
-/

namespace Ns2XPass

/-- `sack_min` is the `rcv_nxt_` of the queue, which holds a reference to it. -/
structure ScoreBoardRQ where
  hSeqno : TcpSeq
  changed : Bool
  rq : ReassemblyQueue

namespace ScoreBoardRQ

variable (b : ScoreBoardRQ)

def sackMin : TcpSeq := b.rq.rcvNxt

/-- Raise `h_seqno_` to a sequence number. -/
def raise (seq : TcpSeq) : ScoreBoardRQ :=
  { b with hSeqno := if b.hSeqno < seq then seq else b.hSeqno }

/-- What `GetNextRetran` does with the hole it has found. -/
def takeHole (seq : TcpSeq) (fcnt : ℤ) : ScoreBoardRQ × TcpSeq :=
  if 0 < seq then
    if fcnt ≤ 0 then (b, -1) else (b.raise seq, seq)
  else (b, -1)

def getNextRetran : Except RqError (ScoreBoardRQ × TcpSeq) := do
  let b := b.raise b.sackMin
  let (rq, seq, fcnt, _) ← b.rq.nexthole b.hSeqno
  return { b with rq }.takeHole seq fcnt

/-- The loop of `UpdateScoreBoard` over the blocks of the SACK header. -/
def addBlocks : ReassemblyQueue → List (TcpSeq × TcpSeq) → Except RqError ReassemblyQueue
  | rq, [] => .ok rq
  | rq, (left, right) :: blocks => do
    let (rq, _) ← rq.add left right 0 0
    addBlocks rq blocks

def setSackMin (seq : TcpSeq) : ScoreBoardRQ := { b with rq := { b.rq with rcvNxt := seq } }

/-- What `UpdateScoreBoard` does once it has moved `sack_min`. -/
def clearLeft : Except RqError ScoreBoardRQ :=
  if b.rq.empty then return { b with changed := false }
  else do
    let (rq, _) ← b.rq.cleartonxt
    return { b with rq, changed := true }

/-- The beginning of `UpdateScoreBoard`: the queue begins one beyond the last ACK. -/
def moveLeftEdge (lastAck : TcpSeq) : Except RqError ScoreBoardRQ :=
  if b.sackMin ≤ lastAck then (b.setSackMin (lastAck + 1)).clearLeft
  else return { b with changed := false }

def updateScoreBoard (lastAck : TcpSeq) (blocks : List (TcpSeq × TcpSeq)) :
    Except RqError ScoreBoardRQ := do
  let oldTotal := b.rq.total
  let b ← b.moveLeftEdge lastAck
  let rq ← addBlocks b.rq blocks
  return { b with rq, changed := b.changed || decide (oldTotal ≠ rq.total) }

def markRetran (retranSeqno : TcpSeq) : ScoreBoardRQ :=
  { b with hSeqno := if b.hSeqno ≤ retranSeqno then retranSeqno + 1 else b.hSeqno }

end ScoreBoardRQ

/-- The calls of a sender. -/
inductive RqBoardCall
  | updateScoreBoard (lastAck : TcpSeq) (blocks : List (TcpSeq × TcpSeq))
  | getNextRetran
  | markRetran (retranSeqno : TcpSeq)

namespace RqBoardCall

def step (b : ScoreBoardRQ) : RqBoardCall → Except RqError ScoreBoardRQ
  | .updateScoreBoard lastAck blocks => b.updateScoreBoard lastAck blocks
  | .getNextRetran => b.getNextRetran.map Prod.fst
  | .markRetran retranSeqno => .ok (b.markRetran retranSeqno)

/-- The blocks of a SACK header are not empty. -/
def Valid : RqBoardCall → Prop
  | .updateScoreBoard _ blocks => ∀ s ∈ blocks, s.1 < s.2
  | _ => True

instance : DecidablePred Valid
  | .updateScoreBoard _ blocks => inferInstanceAs (Decidable (∀ s ∈ blocks, s.1 < s.2))
  | .getNextRetran | .markRetran _ => inferInstanceAs (Decidable True)

end RqBoardCall

/-- The board as it is created. -/
def rqBoard : Machine ScoreBoardRQ RqBoardCall RqError where
  Init b := b.hSeqno = -1 ∧ b.rq.Fresh (-1)
  Enabled _ c := c.Valid
  step := RqBoardCall.step

/-- The last cumulative ACK and all blocks that have been reported. -/
structure SackHistory where
  acked : TcpSeq
  blocks : List (TcpSeq × TcpSeq)

namespace SackHistory

/-- A block that has been reported covers the number. -/
def Reported (g : SackHistory) (x : TcpSeq) : Prop := ∃ s ∈ g.blocks, s.1 ≤ x ∧ x < s.2

def record (_ : ScoreBoardRQ) (c : RqBoardCall) (_ : ScoreBoardRQ) (g : SackHistory) :
    SackHistory :=
  match c with
  | .updateScoreBoard lastAck blocks => { acked := lastAck, blocks := g.blocks ++ blocks }
  | _ => g

/-- The cumulative ACK does not decrease. -/
def Legal (p : ScoreBoardRQ × SackHistory) : RqBoardCall → Prop
  | .updateScoreBoard lastAck _ => p.2.acked ≤ lastAck
  | _ => True

instance (p : ScoreBoardRQ × SackHistory) : DecidablePred (Legal p)
  | .updateScoreBoard lastAck _ => inferInstanceAs (Decidable (p.2.acked ≤ lastAck))
  | .getNextRetran | .markRetran _ => inferInstanceAs (Decidable True)

/-- A retransmission that the board may ask for, if any: of a number above the ACK that has not
been reported, below one that has. -/
def Wants (g : SackHistory) (r : TcpSeq) : Prop :=
  r = -1 ∨ g.acked < r ∧ ¬ g.Reported r ∧ ∃ x, g.Reported x ∧ r < x

end SackHistory

/-- The runs of the board beside their history, from the ACK that a sender begins with on. -/
def sacking : Machine (ScoreBoardRQ × SackHistory) RqBoardCall RqError :=
  (rqBoard.withHistory { acked := -1, blocks := [] } SackHistory.record).restrict SackHistory.Legal

/-! ## The left edge -/

namespace ReassemblyQueue

/-- A block of the queue covers the number. -/
def Covers (rq : ReassemblyQueue) (x : TcpSeq) : Prop :=
  (seek rq.fifo.next (fun a => ¬ (rq.startseq a ≤ x ∧ x < rq.endseq a)) (rq.brk + 1)
    rq.fifo.head).join.isSome = true

instance (rq : ReassemblyQueue) (x : TcpSeq) : Decidable (rq.Covers x) :=
  inferInstanceAs (Decidable (_ = true))

variable {rq rq' : ReassemblyQueue} {as bs : List ℕ} {x m left right acked : TcpSeq}
  {c : Set TcpSeq}

theorem Holds.mem_covered_of_covers (h : rq.Holds as) (hx : rq.Covers x) : x ∈ rq.covered as := by
  obtain ⟨a, ha⟩ := Option.isSome_iff_exists.mp hx
  obtain ⟨ha, hin⟩ := h.threaded.spells.forward.of_seek (Option.join_eq_some_iff.mp ha)
  exact ⟨a, ha, not_not.mp hin⟩

/-- The left edge `m` is above the ACK. What lies between them is held, and what is held below
the edge reaches up to it. -/
structure Edge (c : Set TcpSeq) (acked m : TcpSeq) : Prop where
  above : acked < m
  filled : ∀ x, acked < x → x < m → x ∈ c
  upTo : ∀ x ∈ c, x < m → Set.Ico x m ⊆ c

/-- A block that ends above the ACK or at a number that is held reaches up to the edge, too. -/
theorem Edge.union (h : Edge c acked m) (hr : acked < right ∨ right ∈ c) :
    ∀ x ∈ c ∪ Set.Ico left right, x < m → Set.Ico x m ⊆ c ∪ Set.Ico left right := by
  rintro x (hx | hx) hxm y hy
  · exact .inl (h.upTo x hx hxm hy)
  · rcases lt_or_ge y right with hyr | hyr
    · exact .inr ⟨hx.1.trans hy.1, hyr⟩
    · have hrm : right < m := hyr.trans_lt hy.2
      have hrc : right ∈ c := hr.elim (fun ha => h.filled right ha hrm) id
      exact .inl (h.upTo right hrc hrm ⟨hyr, hy.2⟩)

/-- Adding such a block does not move the edge back. -/
theorem Edge.add (h : Edge (rq.covered as) acked rq.rcvNxt)
    (hr : acked < right ∨ right ∈ rq.covered as) (hh : rq'.Holds bs) {flags : TcpFlag}
    (hg : Gained rq as left right 0 rq' flags bs) :
    Edge (rq'.covered bs) acked rq'.rcvNxt ∧ rq.rcvNxt ≤ rq'.rcvNxt := by
  have hup : ∀ x ∈ rq.covered as ∪ Set.Ico left right, x < rq.rcvNxt →
      Set.Ico x rq.rcvNxt ⊆ rq.covered as ∪ Set.Ico left right := h.union hr
  rw [← hg.covered] at hup
  have hsub : rq.covered as ⊆ rq'.covered bs := hg.covered ▸ Set.subset_union_left
  rcases hg.next with hnext | ⟨b, hb, hbm, hnext⟩
  · rw [hnext]
    exact ⟨⟨h.above, fun x ha hx => hsub (h.filled x ha hx), hup⟩, le_rfl⟩
  · have hne := hh.separated.nonempty b hb
    have hmem : Set.Ico (rq'.startseq b) (rq'.endseq b) ⊆ rq'.covered bs := fun x hx => ⟨b, hb, hx⟩
    have hle : rq.rcvNxt ≤ rq'.endseq b := by
      by_contra hlt
      rw [not_le] at hlt
      have hend := hup _ (hmem ⟨le_rfl, hne⟩) (hne.trans hlt) ⟨hne.le, hlt⟩
      exact hh.separated.ordered.hi_notMem_cover hb hend
    rw [hnext]
    refine ⟨⟨h.above.trans_le hle, fun x ha hx => ?_, fun x hx hxe y hy => ?_⟩, hle⟩
    · rcases lt_or_ge x rq.rcvNxt with hxm | hxm
      · exact hsub (h.filled x ha hxm)
      · exact hmem ⟨hbm.trans hxm, hx⟩
    · rcases lt_or_ge y rq.rcvNxt with hym | hym
      · exact hup x hx (hy.1.trans_lt hym) ⟨hy.1, hym⟩
      · exact hmem ⟨hbm.trans hym, hy.2⟩

end ReassemblyQueue

open ReassemblyQueue

/-- Each block ends above the ACK, or at a number that is held by then. -/
def Anchored (lastAck : TcpSeq) : (TcpSeq → Prop) → List (TcpSeq × TcpSeq) → Prop
  | _, [] => True
  | held, s :: blocks =>
    (lastAck < s.2 ∨ held s.2) ∧ Anchored lastAck (fun x => held x ∨ s.1 ≤ x ∧ x < s.2) blocks

def decidableAnchored (lastAck : TcpSeq) : (blocks : List (TcpSeq × TcpSeq)) →
    (held : TcpSeq → Prop) → [DecidablePred held] → Decidable (Anchored lastAck held blocks)
  | [], _, _ => isTrue trivial
  | s :: blocks, held, _ =>
    have := decidableAnchored lastAck blocks fun x => held x ∨ s.1 ≤ x ∧ x < s.2
    inferInstanceAs (Decidable ((lastAck < s.2 ∨ held s.2) ∧ _))

instance (lastAck : TcpSeq) (held : TcpSeq → Prop) [DecidablePred held] :
    DecidablePred (Anchored lastAck held) := fun blocks => decidableAnchored lastAck blocks held

namespace SackHistory

/-- Each block ends above the ACK or at a number that the board holds, and `nexthole` is not
called once numbers from `2 ^ 32` on have been reported, which it would truncate. -/
def Sound (p : ScoreBoardRQ × SackHistory) : RqBoardCall → Prop
  | .updateScoreBoard lastAck blocks =>
    Anchored lastAck (fun x => lastAck < p.1.sackMin ∧ p.1.rq.Covers x) blocks
  | .getNextRetran => ∀ s ∈ p.2.blocks, s.2 ≤ 2 ^ 32
  | .markRetran _ => True

instance (p : ScoreBoardRQ × SackHistory) : DecidablePred (Sound p)
  | .updateScoreBoard lastAck _ =>
    inferInstanceAs (Decidable (Anchored lastAck
      (fun x => lastAck < p.1.sackMin ∧ p.1.rq.Covers x) _))
  | .getNextRetran => inferInstanceAs (Decidable (∀ s ∈ p.2.blocks, s.2 ≤ 2 ^ 32))
  | .markRetran _ => inferInstanceAs (Decidable True)

end SackHistory

namespace ScoreBoardRQ

variable {b : ScoreBoardRQ} {g : SackHistory} {as : List ℕ} {lastAck acked : TcpSeq}
  {blocks : List (TcpSeq × TcpSeq)}

/-- The numbers of some blocks. -/
def numbers (blocks : List (TcpSeq × TcpSeq)) : Set TcpSeq := {x | ∃ s ∈ blocks, s.1 ≤ x ∧ x < s.2}

theorem numbers_cons {s : TcpSeq × TcpSeq} :
    numbers (s :: blocks) = Set.Ico s.1 s.2 ∪ numbers blocks := by
  ext x; simp [numbers]

theorem numbers_append {blocks' : List (TcpSeq × TcpSeq)} :
    numbers (blocks ++ blocks') = numbers blocks ∪ numbers blocks' := by
  ext x; simp [numbers, or_and_right, exists_or]

theorem addBlocks_spec {rq : ReassemblyQueue} {held : TcpSeq → Prop} (h : rq.Holds as)
    (he : Edge (rq.covered as) acked rq.rcvNxt) (hv : ∀ s ∈ blocks, s.1 < s.2)
    (hheld : ∀ x, held x → x ∈ rq.covered as) (ha : Anchored acked held blocks) :
    ∃ rq' bs, addBlocks rq blocks = .ok rq' ∧ rq'.Holds bs ∧
      rq'.covered bs = rq.covered as ∪ numbers blocks ∧
      Edge (rq'.covered bs) acked rq'.rcvNxt ∧ rq.rcvNxt ≤ rq'.rcvNxt := by
  induction blocks generalizing rq as held with
  | nil => exact ⟨rq, as, rfl, h, by simp [numbers], he, le_rfl⟩
  | cons s blocks ih =>
    obtain ⟨left, right⟩ := s
    obtain ⟨hlt, hv⟩ := List.forall_mem_cons.mp hv
    obtain ⟨hr, ha⟩ := ha
    obtain ⟨rq', flags, bs, hok, hh, hg⟩ := h.gained hlt 0 0
    obtain ⟨he', hle⟩ := he.add (hr.imp_right (hheld right)) hh hg
    have hheld' : ∀ x, held x ∨ left ≤ x ∧ x < right → x ∈ rq'.covered bs := fun x hx => by
      rw [hg.covered]
      exact hx.imp (hheld x) id
    obtain ⟨rq'', bs', hok', hh', hcov, he'', hle'⟩ := ih hh he' hv hheld' ha
    refine ⟨rq'', bs', ?_, hh', ?_, he'', hle.trans hle'⟩
    · rw [addBlocks, hok]
      exact hok'
    · rw [hcov, hg.covered, numbers_cons, Set.union_assoc]

/-- The queue holds what has been reported from the left edge on, and nothing else. -/
structure Tracks (b : ScoreBoardRQ) (g : SackHistory) (as : List ℕ) : Prop where
  holds : b.rq.Holds as
  acked : -1 ≤ g.acked
  reported : b.rq.covered as ⊆ numbers g.blocks
  held : ∀ x ∈ numbers g.blocks, b.sackMin ≤ x → x ∈ b.rq.covered as
  edge : Edge (b.rq.covered as) g.acked b.sackMin ∨ as = [] ∧ g.blocks = [] ∧ b.sackMin ≤ g.acked

theorem holds_setSackMin (h : b.rq.Holds as) (seq : TcpSeq) : (b.setSackMin seq).rq.Holds as :=
  ⟨⟨h.threaded.linked, h.threaded.stacked⟩, h.separated, h.total⟩

/-- What is left is what lies from `sack_min` on. -/
theorem clearLeft_spec (h : b.rq.Holds as) :
    ∃ b' bs, b.clearLeft = .ok b' ∧ b'.rq.Holds bs ∧
      b'.rq.covered bs = b.rq.covered as ∩ Set.Ici b.sackMin ∧ b'.sackMin = b.sackMin := by
  rw [clearLeft]
  split_ifs with hnil
  · obtain rfl : as = [] := List.head?_eq_none_iff.mp
      (h.threaded.spells.head_eq.symm.trans (Option.isNone_iff_eq_none.mp hnil))
    exact ⟨_, [], rfl, h, by simp [covered], rfl⟩
  · obtain ⟨rq', flag, bs, hok, hh, hcov, hnext⟩ := h.clearto b.sackMin
    have hclear : b.rq.cleartonxt = .ok (rq', flag) := hok
    rw [hclear]
    exact ⟨_, bs, rfl, hh, hcov, hnext⟩

/-- Moving the left edge behind the ACK clears what lies below it. -/
theorem Tracks.moveLeftEdge (h : b.Tracks g as) (ha : g.acked ≤ lastAck) :
    ∃ b' bs, b.moveLeftEdge lastAck = .ok b' ∧ b'.rq.Holds bs ∧
      Edge (b'.rq.covered bs) lastAck b'.sackMin ∧ b.sackMin ≤ b'.sackMin ∧
      b'.rq.covered bs ⊆ b.rq.covered as ∧
      (∀ x ∈ b.rq.covered as, b'.sackMin ≤ x → x ∈ b'.rq.covered bs) ∧
      (lastAck < b.sackMin → b'.rq.covered bs = b.rq.covered as) := by
  rw [ScoreBoardRQ.moveLeftEdge]
  split_ifs with hle
  · obtain ⟨b', bs, hok, hh, hcov, hmin⟩ := clearLeft_spec (holds_setSackMin h.holds (lastAck + 1))
    have hcov : b'.rq.covered bs = b.rq.covered as ∩ Set.Ici (lastAck + 1) := hcov
    have hmin : b'.sackMin = lastAck + 1 := hmin
    have hlt : lastAck < lastAck + 1 := Int.lt_succ lastAck
    refine ⟨b', bs, hok, hh, ?_, ?_, ?_, ?_, fun hlt => absurd hle hlt.not_ge⟩
    · rw [hcov, hmin]
      refine ⟨hlt, fun x hx hxm => ?_, fun x hx hxm => absurd hx.2 hxm.not_ge⟩
      exact absurd (Int.add_one_le_of_lt hx) hxm.not_ge
    · rw [hmin]
      exact hle.trans hlt.le
    · rw [hcov]
      exact Set.inter_subset_left
    · intro x hx hxm
      rw [hmin] at hxm
      rw [hcov]
      exact ⟨hx, hxm⟩
  · have hlt : lastAck < b.sackMin := not_le.mp hle
    have he := h.edge.resolve_right fun hno => (ha.trans_lt hlt).not_ge hno.2.2
    exact ⟨_, as, rfl, h.holds, ⟨hlt, fun x hx hxm => he.filled x (ha.trans_lt hx) hxm, he.upTo⟩,
      le_rfl, subset_rfl, fun x hx _ => hx, fun _ => rfl⟩

theorem Tracks.updateScoreBoard (h : b.Tracks g as) (ha : g.acked ≤ lastAck)
    (hv : ∀ s ∈ blocks, s.1 < s.2)
    (hs : Anchored lastAck (fun x => lastAck < b.sackMin ∧ b.rq.Covers x) blocks) :
    ∃ b' bs, b.updateScoreBoard lastAck blocks = .ok b' ∧ b.sackMin ≤ b'.sackMin ∧
      b'.Tracks { acked := lastAck, blocks := g.blocks ++ blocks } bs := by
  obtain ⟨b', bs, hok, hh, he, hmin, hsub, hkept, heq⟩ := h.moveLeftEdge ha
  have hheld : ∀ x, lastAck < b.sackMin ∧ b.rq.Covers x → x ∈ b'.rq.covered bs :=
    fun x ⟨hlt, hx⟩ => heq hlt ▸ h.holds.mem_covered_of_covers hx
  obtain ⟨rq', bs', hok', hh', hcov, he', hmin'⟩ := addBlocks_spec hh he hv hheld hs
  rw [ScoreBoardRQ.updateScoreBoard, hok]
  change ∃ b'' bs'', (addBlocks b'.rq blocks >>= _) = _ ∧ _
  rw [hok']
  refine ⟨_, bs', rfl, hmin.trans hmin', hh', h.acked.trans ha, ?_, ?_, .inl he'⟩
  · rw [hcov, numbers_append]
    exact Set.union_subset_union_left _ (hsub.trans h.reported)
  · intro x hx hxm
    have hxm : rq'.rcvNxt ≤ x := hxm
    rw [hcov]
    rw [numbers_append] at hx
    refine hx.imp_left fun hx => hkept x (h.held x hx ?_) (hmin'.trans hxm)
    exact hmin.trans (hmin'.trans hxm)

theorem Tracks.markRetran (h : b.Tracks g as) (seqno : TcpSeq) :
    (b.markRetran seqno).Tracks g as :=
  ⟨h.holds, h.acked, h.reported, h.held, h.edge⟩

theorem wrap32_eq_of_pos {x : ℤ} (hx : 0 ≤ x) (hu : x < 2 ^ 32) (h : 0 < wrap32 x) :
    wrap32 x = x := by
  rcases lt_or_ge x (2 ^ 31) with hlt | hge
  · exact wrap32_of_lt (by omega) hlt
  · rw [wrap32] at h
    have hb : x.bmod (2 ^ 32) = x - 2 ^ 32 := by
      rw [Int.bmod_eq_iff (by decide)]
      omega
    omega

/-- The tail of `GetNextRetran`, with what `nexthole` has found. -/
theorem Tracks.wants (h : b.Tracks g as) (hb : ∀ s ∈ g.blocks, s.2 ≤ 2 ^ 32) {seq v : TcpSeq}
    {fcnt : ℤ} (hv : Hole b.rq as seq v fcnt) (hseq : b.sackMin ≤ seq) (hf : 0 < fcnt)
    (hpos : 0 < wrap32 v) : g.Wants (wrap32 v) := by
  obtain ⟨a, ha, hva⟩ := hv.below hf
  have he := h.edge.resolve_right fun hno => List.ne_nil_of_mem ha hno.1
  have hcov : b.rq.startseq a ∈ b.rq.covered as :=
    ⟨a, ha, le_rfl, h.holds.separated.nonempty a ha⟩
  obtain ⟨s, hs, hlo, hhi⟩ := h.reported hcov
  have hmin : b.sackMin ≤ v := hseq.trans hv.ge
  have hack : g.acked < v := he.above.trans_le hmin
  have hle := hb s hs
  rw [wrap32_eq_of_pos (h.acked.trans_lt hack) (hva.trans (hhi.trans_le hle)) hpos]
  refine .inr ⟨hack, fun hr => hv.missing (h.held v hr hmin), b.rq.startseq a, ?_, hva⟩
  exact ⟨s, hs, hlo, hhi⟩

theorem Tracks.raise (h : b.Tracks g as) (seq : TcpSeq) : (b.raise seq).Tracks g as :=
  ⟨h.holds, h.acked, h.reported, h.held, h.edge⟩

theorem Tracks.of_hint (h : b.Tracks g as) (hint : Option ℕ) :
    ({ b with rq := { b.rq with hint } }).Tracks g as :=
  ⟨⟨⟨h.holds.threaded.linked, h.holds.threaded.stacked⟩, h.holds.separated, h.holds.total⟩, h.acked,
    h.reported, h.held, h.edge⟩

theorem le_raise_hSeqno (seq : TcpSeq) : seq ≤ (b.raise seq).hSeqno := by
  rw [ScoreBoardRQ.raise]
  split_ifs with hlt
  · exact le_rfl
  · exact not_lt.mp hlt

theorem Tracks.takeHole (h : b.Tracks g as) {seq : TcpSeq} {fcnt : ℤ}
    (hw : 0 < seq → 0 < fcnt → g.Wants seq) :
    (b.takeHole seq fcnt).1.sackMin = b.sackMin ∧ (b.takeHole seq fcnt).1.Tracks g as ∧
      g.Wants (b.takeHole seq fcnt).2 := by
  rw [ScoreBoardRQ.takeHole]
  split_ifs with hpos hcnt
  · exact ⟨rfl, h, .inl rfl⟩
  · exact ⟨rfl, h.raise seq, hw hpos (not_le.mp hcnt)⟩
  · exact ⟨rfl, h, .inl rfl⟩

theorem Tracks.getNextRetran (h : b.Tracks g as) (hb : ∀ s ∈ g.blocks, s.2 ≤ 2 ^ 32) :
    ∃ b' r, b.getNextRetran = .ok (b', r) ∧ b'.sackMin = b.sackMin ∧ b'.Tracks g as ∧
      g.Wants r := by
  have hr := h.raise b.sackMin
  obtain ⟨seq, fcnt, fbytes, hok, hhole⟩ := hr.holds.stores.nexthole (b.raise b.sackMin).hSeqno
  have hw : 0 < seq → 0 < fcnt → g.Wants seq := fun hpos hf => by
    obtain ⟨v, rfl, hv⟩ := hhole.resolve_left (by omega)
    exact hr.wants hb hv (le_raise_hSeqno b.sackMin) hf hpos
  obtain ⟨hmin, ht, hw⟩ := (hr.of_hint (b.raise b.sackMin).rq.fifo.head).takeHole hw
  rw [ScoreBoardRQ.getNextRetran]
  dsimp only
  rw [hok]
  exact ⟨_, _, rfl, hmin, ht, hw⟩

/-- Every call of a sound run succeeds and does not move the left edge back. -/
theorem Tracks.step {p : ScoreBoardRQ × SackHistory} (h : p.1.Tracks p.2 as) {c : RqBoardCall}
    (hv : c.Valid) (hl : SackHistory.Legal p c) (hs : SackHistory.Sound p c) :
    ∃ b' bs, c.step p.1 = .ok b' ∧ p.1.sackMin ≤ b'.sackMin ∧
      b'.Tracks (SackHistory.record p.1 c b' p.2) bs := by
  cases c with
  | updateScoreBoard lastAck blocks => exact h.updateScoreBoard hl hv hs
  | getNextRetran =>
    obtain ⟨b', r, hok, hmin, htracks, -⟩ := h.getNextRetran hs
    exact ⟨b', as, by rw [RqBoardCall.step, hok]; rfl, hmin.ge, htracks⟩
  | markRetran seqno => exact ⟨_, as, rfl, le_rfl, h.markRetran seqno⟩

end ScoreBoardRQ

open ScoreBoardRQ

theorem sacking_invariant :
    (sacking.restrict SackHistory.Sound).Invariant fun p => ∃ as, p.1.Tracks p.2 as where
  init p hi := by
    obtain ⟨⟨-, hf⟩, hg⟩ := hi
    refine ⟨[], hf.holds, by rw [hg], by simp [covered], by simp [hg, numbers], ?_⟩
    exact .inr ⟨rfl, by rw [hg], by rw [sackMin, hf.rcvNxt, hg]⟩
  step p c p' h he hs := by
    obtain ⟨as, h⟩ := h
    obtain ⟨⟨hv, hl⟩, hsound⟩ := he
    obtain ⟨hs, hg⟩ := (Machine.withHistory_step_iff { acked := -1, blocks := [] }).mp hs
    obtain ⟨b', bs, hok, -, h'⟩ := h.step hv hl hsound
    obtain rfl : b' = p'.1 := Except.ok.inj (hok.symm.trans hs)
    exact ⟨bs, hg ▸ h'⟩

/-- In every run in which each SACK block ends above the last cumulative ACK or at a number that
the board holds, and `GetNextRetran` is not called once a number from `2 ^ 32` on has been
reported: no call fails, `sack_min` never decreases, and what `GetNextRetran` returns is above the
last cumulative ACK, not covered by any block reported, and below a number that is. -/
theorem scoreBoardRQ_wants {p : ScoreBoardRQ × SackHistory}
    (h : (sacking.restrict SackHistory.Sound).Reachable p) :
    (∀ c : RqBoardCall, c.Valid → SackHistory.Legal p c → SackHistory.Sound p c →
      ∃ b', c.step p.1 = .ok b' ∧ p.1.sackMin ≤ b'.sackMin ∧
        (sacking.restrict SackHistory.Sound).Reachable (b', SackHistory.record p.1 c b' p.2)) ∧
      ((∀ s ∈ p.2.blocks, s.2 ≤ 2 ^ 32) →
        ∃ b' r, p.1.getNextRetran = .ok (b', r) ∧ p.2.Wants r) := by
  obtain ⟨as, ht⟩ := sacking_invariant.reachable h
  refine ⟨fun c hv hl hs => ?_, fun hb => ?_⟩
  · obtain ⟨b', bs, hok, hmin, -⟩ := ht.step hv hl hs
    exact ⟨b', hok, hmin, h.step ⟨⟨hv, hl⟩, hs⟩
      ((Machine.withHistory_step_iff { acked := -1, blocks := [] }).mpr ⟨hok, rfl⟩)⟩
  · obtain ⟨b', r, hok, -, -, hw⟩ := ht.getNextRetran hb
    exact ⟨b', r, hok, hw⟩

/-- A board that has reported nothing. -/
def freshBoard : ScoreBoardRQ × SackHistory :=
  (⟨-1, false, ⟨fun _ => none, fun _ => none, none, none⟩,
    ⟨fun _ => none, fun _ => none, none, none⟩, fun _ => 0, fun _ => 0, fun _ => 0, fun _ => 0,
    fun _ => 0, none, 0, none, 0, -1⟩, ⟨-1, []⟩)

theorem freshBoard_init : sacking.Init freshBoard :=
  ⟨⟨rfl, rfl, rfl, rfl, rfl, rfl, rfl, [], rfl, List.nodup_nil, by simp⟩, rfl⟩

instance (p : ScoreBoardRQ × SackHistory) (c : RqBoardCall) : Decidable (sacking.Enabled p c) :=
  inferInstanceAs (Decidable (c.Valid ∧ SackHistory.Legal p c))

instance (p : ScoreBoardRQ × SackHistory) (c : RqBoardCall) :
    Decidable ((sacking.restrict SackHistory.Sound).Enabled p c) :=
  inferInstanceAs (Decidable (sacking.Enabled p c ∧ SackHistory.Sound p c))

/-- Two holes, of which the first is retransmitted. -/
theorem scoreBoardRQ_wants_hole : ∃ p b', (sacking.restrict SackHistory.Sound).Reachable p ∧
    p.1.getNextRetran = .ok (b', 12) ∧ p.2.Wants 12 := by
  obtain ⟨p, h, hp⟩ := (Machine.Reachable.init (M := sacking.restrict SackHistory.Sound)
    freshBoard_init).exists_of_exec
    [.updateScoreBoard 4 [(6, 12), (15, 20)], .getNextRetran, .markRetran 5]
    (fun p => (p.1.getNextRetran.toOption.any fun x => x.2 = 12) &&
      decide (∀ s ∈ p.2.blocks, s.2 ≤ 2 ^ 32)) (by decide +kernel)
  rw [Bool.and_eq_true, decide_eq_true_eq] at hp
  obtain ⟨b', r, hok, hw⟩ := (scoreBoardRQ_wants h).2 hp.2
  rw [hok] at hp
  obtain rfl : r = 12 := of_decide_eq_true hp.1
  exact ⟨p, b', h, hok, hw⟩

/-- A block below the last ACK moves `sack_min` back, and another makes the board ask for a number
that has been acknowledged. -/
theorem scoreBoardRQ_moves_back :
    (∃ p p', sacking.Reachable p ∧ sacking.step p (.updateScoreBoard 4 [(2, 3)]) = .ok p' ∧
      sacking.Enabled p (.updateScoreBoard 4 [(2, 3)]) ∧ p.1.sackMin = 5 ∧ p'.1.sackMin = 3) ∧
      ∃ p b', sacking.Reachable p ∧ p.1.getNextRetran = .ok (b', 2) ∧ p.2.acked = 4 ∧
        ¬ p.2.Wants 2 := by
  constructor
  · obtain ⟨p, h, hp⟩ := (Machine.Reachable.init freshBoard_init).exists_of_exec
      [.updateScoreBoard 4 []] (fun p => decide (p.1.sackMin = 5 ∧ p.2.acked = 4) &&
        (sacking.step p (.updateScoreBoard 4 [(2, 3)])).toOption.any
          fun p' : ScoreBoardRQ × SackHistory => p'.1.sackMin = 3)
      (by decide +kernel)
    rw [Bool.and_eq_true, decide_eq_true_eq] at hp
    obtain ⟨⟨hmin, hack⟩, hp⟩ := hp
    obtain ⟨p', hstep, hmin'⟩ := exists_of_toOption_any hp
    exact ⟨p, p', h, hstep, ⟨show ∀ s ∈ [((2 : ℤ), (3 : ℤ))], s.1 < s.2 by decide, hack.le⟩, hmin,
      hmin'⟩
  · obtain ⟨p, h, hp⟩ := (Machine.Reachable.init freshBoard_init).exists_of_exec
      [.updateScoreBoard 4 [(17, 22), (0, 2)]] (fun p => decide (p.2.acked = 4) &&
        p.1.getNextRetran.toOption.any fun x : ScoreBoardRQ × TcpSeq => x.2 = 2)
      (by decide +kernel)
    rw [Bool.and_eq_true, decide_eq_true_eq] at hp
    obtain ⟨⟨b', r⟩, hok, rfl⟩ := exists_of_toOption_any hp.2
    refine ⟨p, b', h, hok, hp.1, ?_⟩
    rintro (hno | ⟨hlt, -⟩)
    · exact absurd hno (by decide)
    · rw [hp.1] at hlt
      exact absurd hlt (by decide)

end Ns2XPass
