import Ns2XPass.FullTcp.Frames
import Ns2XPass.Library.Except
import Ns2XPass.Library.Machine
import Ns2XPass.Reassembly.Stream

/-! # The stream is delivered once

Pieces of one stream arrive in any order, any number of times, and overlap in any
way. Whichever path `recv` takes, the application is given every byte once and
in order, and the FIN is received after all of them.
-/

namespace Ns2XPass

open ReassemblyQueue

namespace TcpFlag

variable {f g : TcpFlag}

theorem has_fin_iff : f.has .fin = true ↔ Has f 0 := by
  unfold has fin Has
  rw [decide_eq_true_iff]
  change f &&& 1#32 ≠ 0 ↔ _
  rw [BitVec.and_one_eq_setWidth_ofBool_getLsbD]
  cases f.getLsbD 0 <;> simp

@[simp] theorem has_and_not : (f &&& ~~~g).has g = false := by
  unfold has
  rw [BitVec.and_assoc, BitVec.not_and_self]
  simp

theorem has_fin_of_and (h : (f &&& g).has .fin = true) : f.has .fin = true := by
  rw [has_fin_iff, Has, BitVec.getLsbD_and, Bool.and_eq_true] at h
  exact has_fin_iff.mpr h.1

end TcpFlag

/-- A segment of the stream whose bytes have the numbers above `irs` and below `last`, which is
the number of the FIN. -/
inductive TcpSegment.InStream (irs last : ℤ) (p : TcpSegment) : Prop
  | syn : p.flags.has .syn = true → p.flags.has .fin = false → p.seqno = irs → p.length = 0 →
      InStream irs last p
  | piece : p.flags.has .syn = false → irs < p.seqno → 0 ≤ p.length → p.seqno + p.length ≤ last →
      (p.flags.has .fin = true → p.seqno + p.length = last) → InStream irs last p
  | pureAck : p.flags.has .syn = false → p.flags.has .fin = false → p.seqno = last + 1 →
      p.length = 0 → InStream irs last p

instance (irs last : ℤ) (p : TcpSegment) : Decidable (p.InStream irs last) :=
  decidable_of_iff
    (p.flags.has .syn = true ∧ p.flags.has .fin = false ∧ p.seqno = irs ∧ p.length = 0 ∨
      p.flags.has .syn = false ∧ irs < p.seqno ∧ 0 ≤ p.length ∧ p.seqno + p.length ≤ last ∧
        (p.flags.has .fin = true → p.seqno + p.length = last) ∨
      p.flags.has .syn = false ∧ p.flags.has .fin = false ∧ p.seqno = last + 1 ∧ p.length = 0)
    (by
      constructor
      · rintro (⟨h₁, h₂, h₃, h₄⟩ | ⟨h₁, h₂, h₃, h₄, h₅⟩ | ⟨h₁, h₂, h₃, h₄⟩)
        · exact .syn h₁ h₂ h₃ h₄
        · exact .piece h₁ h₂ h₃ h₄ h₅
        · exact .pureAck h₁ h₂ h₃ h₄
      · intro h
        cases h with
        | syn h₁ h₂ h₃ h₄ => exact .inl ⟨h₁, h₂, h₃, h₄⟩
        | piece h₁ h₂ h₃ h₄ h₅ => exact .inr (.inl ⟨h₁, h₂, h₃, h₄, h₅⟩)
        | pureAck h₁ h₂ h₃ h₄ => exact .inr (.inr ⟨h₁, h₂, h₃, h₄⟩))

/-- The numbers of the bytes of a segment. -/
def TcpSegment.bytes (p : TcpSegment) : Set ℤ := Set.Ico p.seqno (p.seqno + p.length)

namespace FullTcp

variable {cfg : FullTcpConfig} {irs last next : ℤ} {got : Set ℤ} {s s' : FullTcp} {p : TcpSegment}
  {t : Trimmed} {needoutput : Bool}

/-- Whether the data of a segment is processed. -/
def accepts (s : FullTcp) (p : TcpSegment) : Bool := p.flags.has .ack && s.covers p.ackno

/-- The bytes `got` have arrived, and `next` is the first that is missing. -/
structure Follows (irs last : ℤ) (got : Set ℤ) (next : ℤ) (s : FullTcp) : Prop where
  least : IsLeast {x | irs < x ∧ x ∉ got} next
  within : ∀ x ∈ got, x < last
  delivered : s.delivered = next - (irs + 1)
  rcvNxt : s.rcvNxt = next ∧ s.state ≠ .closeWait ∨
    s.rcvNxt = next + 1 ∧ next = last ∧ s.state ≠ .established
  queue : ∃ as, s.rq.Waiting as last got

namespace Follows

theorem le_last (h : Follows irs last got next s) (hlast : irs < last) : next ≤ last :=
  h.least.2 ⟨hlast, fun hm => (h.within last hm).false⟩

theorem mem_got (h : Follows irs last got next s) {x : ℤ} (hlo : irs < x) (hx : x < next) :
    x ∈ got := by
  by_contra hn
  exact (h.least.2 ⟨hlo, hn⟩).not_gt hx

theorem established (h : Follows irs last got next s) (hs : s.state = .established) :
    s.rcvNxt = next := by
  rcases h.rcvNxt with ⟨hnext, -⟩ | ⟨-, -, hne⟩
  · exact hnext
  · exact absurd hs hne

theorem closeWait (h : Follows irs last got next s) (hs : s.state = .closeWait) :
    s.rcvNxt = last + 1 ∧ next = last := by
  rcases h.rcvNxt with ⟨-, hne⟩ | ⟨hnext, hlast, -⟩
  · exact absurd hs hne
  · exact ⟨hlast ▸ hnext, hlast⟩

theorem sends (h : Follows irs last got next s) (hs : Sends s s') :
    Follows irs last got next s' := by
  refine ⟨h.least, h.within, hs.delivered.trans h.delivered, ?_, hs.rq ▸ h.queue⟩
  rw [hs.rcvNxt]
  rcases hs.state with hstate | hstate | hstate <;> rw [hstate]
  · exact h.rcvNxt
  · exact h.rcvNxt.imp (fun hn => ⟨hn.1, nofun⟩) fun hn => ⟨hn.1, hn.2.1, nofun⟩
  · exact h.rcvNxt.imp (fun hn => ⟨hn.1, nofun⟩) fun hn => ⟨hn.1, hn.2.1, nofun⟩

/-- Bytes that have been received already make no difference. -/
theorem union_eq (h : Follows irs last got next s) {lo hi : ℤ}
    (hb : ∀ x, lo ≤ x → x < hi → irs < x ∧ x < next) : got ∪ Set.Ico lo hi = got :=
  Set.union_eq_left.mpr fun x hx => h.mem_got (hb x hx.1 hx.2).1 (hb x hx.1 hx.2).2

end Follows

/-! ## Trimming -/

theorem trim_fst : (s.trim p).1 = s ∨ (s.trim p).1 = s.setAcknow := by
  unfold trim
  extract_lets
  split_ifs <;> simp

/-- What is left of a piece of the stream begins at `rcv_nxt_` or behind it. -/
structure Cut (irs last : ℤ) (s : FullTcp) (p : TcpSegment) (t : Trimmed) : Prop where
  syn : p.flags.has .syn = false
  first : irs < p.seqno
  within : p.seqno + p.length ≤ last
  fin : p.flags.has .fin = true → p.seqno + p.length = last
  tiflags : t.tiflags = p.flags
  seqno : t.seqno = max p.seqno s.rcvNxt
  datalen : t.datalen = t.length
  ends : t.seqno + t.length = p.seqno + p.length
  length : 0 ≤ t.length

/-- Nothing is left of a segment, all of whose data has been received before. -/
structure Spent (irs : ℤ) (s : FullTcp) (p : TcpSegment) (t : Trimmed) : Prop where
  datalen : t.datalen = 0
  tiflags : t.tiflags.has .fin = false
  received : ∀ x, p.seqno ≤ x → x < p.seqno + p.length → irs < x ∧ x < s.rcvNxt

/-- A SYN that has been received before is dropped. -/
theorem trim_syn (hsyn : p.flags.has .syn = true) (hfin : p.flags.has .fin = false)
    (hlen : p.length = 0) (hdrop : 0 < wrap32 (s.rcvNxt - p.seqno)) :
    (s.trim p).2.datalen = 0 ∧ (s.trim p).2.tiflags.has .fin = false := by
  have hkept : ¬ (p.flags &&& ~~~.syn).has .fin = true := fun h =>
    Bool.false_ne_true (hfin.symm.trans (TcpFlag.has_fin_of_and h))
  have hdup : p.length < wrap32 (s.rcvNxt - p.seqno) - 1 ∨
      (wrap32 (s.rcvNxt - p.seqno) - 1 = p.length ∧ ¬ (p.flags &&& ~~~.syn).has .fin = true) := by
    rcases lt_or_eq_of_le (Int.le_sub_one_iff.mpr hdrop) with hlt | heq
    · exact .inl (hlen ▸ hlt)
    · exact .inr ⟨heq.symm.trans hlen.symm, hkept⟩
  unfold trim
  simp only [hsyn, hdrop, true_or, and_self, if_true, hdup, TcpFlag.has_and_not]

theorem trim_data (hsyn : p.flags.has .syn = false) :
    (s.trim p).2 =
      let todrop := wrap32 (s.rcvNxt - p.seqno)
      if 0 < todrop ∧ 0 < p.length then
        if p.length < todrop ∨ todrop = p.length ∧ ¬ p.flags.has .fin = true then
          { seqno := p.seqno + p.length
            length := p.length - p.length
            datalen := 0
            tiflags := p.flags &&& ~~~.fin
            dupseg := true }
        else
          { seqno := p.seqno + todrop
            length := p.length - todrop
            datalen := p.length - todrop
            tiflags := p.flags
            dupseg := false }
      else
        { seqno := p.seqno
          length := p.length
          datalen := p.length
          tiflags := p.flags
          dupseg := false } := by
  unfold trim
  simp only [hsyn, Bool.false_eq_true, false_or, if_false]
  split_ifs <;> rfl

theorem trim_snd (hp : p.InStream irs last) (hirs : 0 ≤ irs) (hlast : last < 2 ^ 31)
    (hlo : irs < s.rcvNxt) (hhi : s.rcvNxt ≤ last) :
    Spent irs s p (s.trim p).2 ∨ Cut irs last s p (s.trim p).2 := by
  cases hp with
  | syn hsyn hfin hseqno hlen =>
    have hdrop : wrap32 (s.rcvNxt - p.seqno) = s.rcvNxt - p.seqno :=
      wrap32_of_lt (by omega) (by omega)
    obtain ⟨hdatalen, htiflags⟩ := trim_syn hsyn hfin hlen (s := s) (by omega)
    exact .inl ⟨hdatalen, htiflags, by omega⟩
  | piece hsyn hseqno hlen hend hfin =>
    have hdrop : wrap32 (s.rcvNxt - p.seqno) = s.rcvNxt - p.seqno :=
      wrap32_of_lt (by omega) (by omega)
    rw [trim_data hsyn, hdrop]
    dsimp only
    split_ifs with hold hdup
    · refine .inl ⟨rfl, TcpFlag.has_and_not, fun x hx hx' => ?_⟩
      omega
    · exact .inr ⟨hsyn, hseqno, hend, hfin, rfl, by dsimp only; omega, rfl, by dsimp only; omega,
        by dsimp only; omega⟩
    · rcases le_or_gt s.rcvNxt p.seqno with hge | hlt
      · exact .inr ⟨hsyn, hseqno, hend, hfin, rfl, (max_eq_left hge).symm, rfl, rfl, hlen⟩
      · have hzero : p.length = 0 := by omega
        have hnofin : p.flags.has .fin = false := eq_false_of_ne_true fun hf => by
          have hlast := hfin hf
          omega
        exact .inl ⟨hzero, hnofin, by omega⟩
  | pureAck hsyn hfin hseqno hlen =>
    rw [trim_data hsyn]
    dsimp only
    rw [if_neg (by omega)]
    exact .inl ⟨hlen, hfin, by omega⟩

/-! ## Data -/

section Data

variable (h : Follows irs last got next s) (hest : s.state = .established)
  (ht : Cut irs last s p t)
include h hest ht

/-- The bytes of the segment, but for those that have been received before. -/
theorem union_bytes : got ∪ p.bytes = got ∪ Set.Ico t.seqno (t.seqno + t.length) := by
  have hnext := h.established hest
  have hseqno := ht.seqno
  ext x
  simp only [TcpSegment.bytes, Set.mem_union, Set.mem_Ico, ht.ends]
  constructor
  · rintro (hx | ⟨hx, hx'⟩)
    · exact .inl hx
    · rcases lt_or_ge x next with hlt | hge
      · exact .inl (h.mem_got (ht.first.trans_le hx) hlt)
      · exact .inr ⟨by omega, hx'⟩
  · rintro (hx | ⟨hx, hx'⟩)
    · exact .inl hx
    · exact .inr ⟨by omega, hx'⟩

omit hest in
theorem bytes_within : ∀ x ∈ got ∪ p.bytes, x < last := by
  rintro x (hx | hx)
  · exact h.within x hx
  · exact hx.2.trans_le ht.within

/-- A segment without data that has not been received before changes nothing. -/
theorem union_bytes_of_nil (hlen : t.length = 0) : got ∪ p.bytes = got := by
  rw [union_bytes h hest ht, hlen, add_zero, Set.Ico_self, Set.union_empty]

omit hest ht in
/-- The least byte that is missing behind those that have been received. -/
theorem least_of_ge {next' : ℤ} (hl : IsLeast {x | next ≤ x ∧ x ∉ got ∪ p.bytes} next') :
    IsLeast {x | irs < x ∧ x ∉ got ∪ p.bytes} next' := by
  refine ⟨⟨h.least.1.1.trans_le hl.1.1, hl.1.2⟩, fun x hx => ?_⟩
  refine hl.2 ⟨not_lt.mp fun hlt => hx.2 (.inl (h.mem_got hx.1 hlt)), hx.2⟩

/-- The segment is in order, and nothing is waiting. -/
theorem follows_inOrder (hseqno : t.seqno = s.rcvNxt) (hempty : s.rq.empty = true)
    (hrq : s'.rq = { s.rq with rcvNxt := s.rcvNxt + t.datalen })
    (hdelivered : s'.delivered = s.delivered + t.datalen) (hstate : s'.state = s.state) :
    Follows irs last (got ∪ p.bytes) (t.seqno + t.length) s' := by
  have hnext := h.established hest
  obtain ⟨as, hw⟩ := h.queue
  obtain rfl := hw.eq_nil_of_empty hempty
  have hbytes := union_bytes h hest ht
  have hlen := ht.length
  have hends : s.rcvNxt + t.datalen = t.seqno + t.length := by rw [ht.datalen, hseqno]
  have hbelow : ∀ x ∈ got ∪ p.bytes, x < t.seqno + t.length := fun x hx => by
    rw [hbytes] at hx
    rcases hx with hx | hx
    · have hlt : x < s.rcvNxt := hw.lt_rcvNxt hx
      omega
    · exact hx.2
  have hleast : IsLeast {x | irs < x ∧ x ∉ got ∪ p.bytes} (t.seqno + t.length) := by
    have hge : next ≤ t.seqno + t.length := by omega
    refine least_of_ge h ⟨⟨hge, fun hm => (hbelow _ hm).false⟩, fun x hx => ?_⟩
    by_contra hlt
    refine hx.2 ?_
    rw [hbytes]
    exact .inr ⟨hseqno.trans hnext ▸ hx.1, not_le.mp hlt⟩
  have hw' : s'.rq.Waiting [] last (got ∪ p.bytes) := by
    rw [hrq, hends]
    exact hw.advance hbelow
  refine ⟨hleast, bytes_within h ht, ?_, .inl ⟨?_, ?_⟩, [], hw'⟩
  · rw [hdelivered, h.delivered, ht.datalen]
    omega
  · exact (congrArg ReassemblyQueue.rcvNxt hrq).trans hends
  · rw [hstate, hest]
    exact nofun

theorem dataInput_inOrder (cfg : FullTcpConfig) (hseqno : t.seqno = s.rcvNxt)
    (hempty : s.rq.empty = true) (hdata : 0 < t.datalen ∨ p.flags.has .fin = true) (hirs : 0 ≤ irs)
    (hlast : last < 2 ^ 31) :
    ∃ s', s.dataInput cfg p t needoutput = .ok (s', p.flags &&& .fin, s'.needSend cfg) ∧
      Follows irs last (got ∪ p.bytes) (t.seqno + t.length) s' ∧ s'.state = s.state := by
  have hopen : s.state ≠ .closeWait := by rw [hest]; exact nofun
  have hcond : (0 < t.datalen ∨ t.tiflags.has .fin = true) ∧ s.state ≠ .closeWait :=
    ⟨ht.tiflags ▸ hdata, hopen⟩
  have hlen := ht.length
  have hdatalen := ht.datalen
  have hlo := h.least.1.1
  have hnext := h.established hest
  have hwithin := ht.ends.trans_le ht.within
  refine ⟨_, by rw [dataInput, if_pos hcond, if_pos ⟨hseqno, hempty⟩]; rfl, ?_, ?_⟩
  · split_ifs with hd
    · refine follows_inOrder h hest ht hseqno hempty rfl ?_ rfl
      rw [delivered_recvBytes, wrap32_of_lt (by omega) (by omega)]
      rfl
    · refine follows_inOrder h hest ht hseqno hempty rfl ?_ rfl
      change s.delivered = s.delivered + t.datalen
      rw [not_not.mp hd, add_zero]
  · split_ifs <;> rfl

/-- The segment is ahead of the data that is missing. -/
theorem reass_ahead (hseqno : s.rcvNxt < t.seqno)
    (hdata : 0 < t.datalen ∨ p.flags.has .fin = true) :
    ∃ s', s.reass p t = .ok (s', 0) ∧ Follows irs last (got ∪ p.bytes) next s' ∧
      s'.state = s.state ∧ s'.rcvNxt = s.rcvNxt := by
  have hnext := h.established hest
  obtain ⟨as, hw⟩ := h.queue
  have hfin : Has p.flags 0 → t.seqno + t.length = last := fun hf =>
    ht.ends.trans (ht.fin (TcpFlag.has_fin_iff.mpr hf))
  have hend : t.seqno = t.seqno + t.length → t.seqno = last := fun heq => by
    have hf := hdata.resolve_left (by rw [ht.datalen]; omega)
    exact heq.trans (hfin (TcpFlag.has_fin_iff.mp hf))
  obtain ⟨rq', flags, bs, hok, hw', hrcv⟩ := hw.add_ahead hfin hseqno
    (le_add_of_nonneg_right ht.length) (ht.ends.trans_le ht.within) hend 0
  have hzero : ¬ (t.length = 0 ∧ ¬ p.flags.has .fin = true) := fun hz =>
    hz.2 (hdata.resolve_left (by rw [ht.datalen, hz.1]; exact lt_irrefl 0))
  refine ⟨{ s with rq := rq' }, ?_, ?_, rfl, hrcv⟩
  · rw [reass, if_neg hzero, hok]
    simp [Except.mapError, bind, Except.bind, hseqno.ne', pure, Except.pure]
  · have hunion := union_bytes h hest ht
    rw [← hunion] at hw'
    have hnot : next ∉ got ∪ p.bytes := by
      rw [hunion]
      rintro (hm | hm)
      · exact h.least.1.2 hm
      · exact (hnext ▸ hseqno).not_ge hm.1
    exact ⟨least_of_ge h (isLeast_self hnot), bytes_within h ht, h.delivered,
      .inl ⟨hrcv.trans hnext, by rw [hest]; exact nofun⟩, bs, hw'⟩

/-- The segment fills the hole. -/
theorem reass_fill (hseqno : t.seqno = s.rcvNxt) (hdata : 0 < t.datalen) :
    ∃ s' tiflags next', s.reass p t = .ok (s', tiflags) ∧ s'.events = s.events ∧
      IsLeast {x | irs < x ∧ x ∉ got ∪ p.bytes} next' ∧ s'.rcvNxt = next' ∧ s'.state = s.state ∧
      (∃ as, s'.rq.Waiting as last (got ∪ p.bytes)) ∧ (tiflags.has .fin = true → next' = last) := by
  have hnext := h.established hest
  obtain ⟨as, hw⟩ := h.queue
  have hfin : Has p.flags 0 → t.seqno + t.length = last := fun hf =>
    ht.ends.trans (ht.fin (TcpFlag.has_fin_iff.mpr hf))
  have hlt : s.rcvNxt < t.seqno + t.length := by
    have hdatalen := ht.datalen
    omega
  obtain ⟨rq₁, flags, rq₂, cleared, bs, hok, hok₂, hw', hleast, hlast⟩ :=
    hw.fill hfin hlt (ht.ends.trans_le ht.within) 0
  have hadd : s.rq.add t.seqno (t.seqno + t.length) p.flags 0 = .ok (rq₁, flags) := hseqno ▸ hok
  have hzero : ¬ (t.length = 0 ∧ ¬ p.flags.has .fin = true) := fun hz => by
    rw [ht.datalen, hz.1] at hdata
    exact hdata.false
  have hunion := union_bytes h hest ht
  have hrcv : s.rq.rcvNxt = t.seqno := hseqno.symm
  rw [hrcv, ← hunion] at hw' hleast
  have hleast' : IsLeast {x | irs < x ∧ x ∉ got ∪ p.bytes} rq₂.rcvNxt :=
    least_of_ge h (hseqno.trans hnext ▸ hleast)
  refine ⟨{ s with rq := rq₂ }, flags ||| cleared, rq₂.rcvNxt, ?_, rfl, hleast', rfl, rfl,
    ⟨bs, hw'⟩, fun hf => ?_⟩
  · rw [reass, if_neg hzero, hadd]
    simp [Except.mapError, bind, Except.bind, hseqno, hok₂, pure, Except.pure]
  · have hmissing : last ∉ got ∪ p.bytes := fun hm => (bytes_within h ht last hm).false
    have hopen : irs < last := by
      have hwithin := ht.ends.trans_le ht.within
      have hlo := h.least.1.1
      omega
    exact (hleast'.2 ⟨hopen, hmissing⟩).antisymm (hlast (TcpFlag.has_fin_iff.mp hf))

omit h hest ht in
/-- What `reass` has taken off the queue is handed on. -/
theorem dataInput_reass (cfg : FullTcpConfig) {tiflags : TcpFlag} (needoutput : Bool)
    (hcond : (0 < t.datalen ∨ t.tiflags.has .fin = true) ∧ s.state ≠ .closeWait)
    (hin : ¬ (t.seqno = s.rcvNxt ∧ s.rq.empty = true)) (hok : s.reass p t = .ok (s', tiflags)) :
    ∃ needoutput', s.dataInput cfg p t needoutput =
      .ok ((if wrap32 s.rcvNxt < s'.rcvNxt then s'.recvBytes (s'.rcvNxt - wrap32 s.rcvNxt)
        else s').setAcknow, tiflags, needoutput') := by
  rw [dataInput, if_pos hcond, if_neg hin, hok]
  exact ⟨_, rfl⟩

/-- The data is received, and a FIN with the last of it. -/
theorem follows_dataInput (cfg : FullTcpConfig) (needoutput : Bool) (hirs : 0 ≤ irs)
    (hlast : last < 2 ^ 31) :
    ∃ s' tiflags needoutput' next',
      s.dataInput cfg p t needoutput = .ok (s', tiflags, needoutput') ∧
      Follows irs last (got ∪ p.bytes) next' s' ∧ s'.state = s.state ∧
      (tiflags.has .fin = true → next' = last) := by
  have hnext := h.established hest
  have hopen : s.state ≠ .closeWait := by rw [hest]; exact nofun
  have hlen := ht.length
  have hlo := h.least.1.1
  have hseqno := ht.seqno
  have hwithin := ht.ends.trans_le ht.within
  by_cases hdata : 0 < t.datalen ∨ p.flags.has .fin = true
  · have hcond : (0 < t.datalen ∨ t.tiflags.has .fin = true) ∧ s.state ≠ .closeWait :=
      ⟨ht.tiflags ▸ hdata, hopen⟩
    by_cases hin : t.seqno = s.rcvNxt ∧ s.rq.empty = true
    · obtain ⟨s', hok, hf, hstate⟩ :=
        dataInput_inOrder h hest ht cfg hin.1 hin.2 hdata hirs hlast
      exact ⟨s', _, _, _, hok, hf, hstate, fun hfin =>
        ht.ends.trans (ht.fin (TcpFlag.has_fin_of_and hfin))⟩
    · have hold : wrap32 s.rcvNxt = next := hnext ▸ wrap32_of_lt (by omega) (by omega)
      by_cases hseq : t.seqno = s.rcvNxt
      · have hpos : 0 < t.datalen := by
          by_contra hzero
          have hend := ht.fin (hdata.resolve_left hzero)
          have hdatalen := ht.datalen
          obtain ⟨as, hw⟩ := h.queue
          have hle : last ≤ s.rcvNxt := by
            have hends := ht.ends
            omega
          obtain rfl := hw.eq_nil hle
          exact hin ⟨hseq, Option.isNone_iff_eq_none.mpr hw.stores.threaded.spells.head_eq⟩
        obtain ⟨s', tiflags, next', hok, hevents, hleast, hrcv, hstate, hw, hfin⟩ :=
          reass_fill h hest ht hseq hpos
        have hdelivered : s'.delivered = next - (irs + 1) :=
          (congrArg (fun es => (es.map TcpEvent.received).sum) hevents).trans h.delivered
        have hmissing : last ∉ got ∪ p.bytes := fun hm => (bytes_within h ht last hm).false
        have hend : next' ≤ last := hleast.2 ⟨by omega, hmissing⟩
        have hgrow : next ≤ next' := h.least.2 ⟨hleast.1.1, fun hm => hleast.1.2 (.inl hm)⟩
        obtain ⟨needoutput', hok'⟩ := dataInput_reass cfg needoutput hcond hin hok
        rw [hold, hrcv] at hok'
        refine ⟨_, tiflags, needoutput', next', hok', ?_, ?_, hfin⟩
        · split_ifs with hlt
          · refine ⟨hleast, bytes_within h ht, ?_, .inl ⟨hrcv, hstate ▸ hopen⟩, hw⟩
            have hwrap : wrap32 (next' - next) = next' - next := wrap32_of_lt (by omega) (by omega)
            have hsum := delivered_recvBytes (s := s') (next' - next)
            rw [hdelivered, hwrap] at hsum
            exact hsum.trans (by ring)
          · refine ⟨hleast, bytes_within h ht, ?_, .inl ⟨hrcv, hstate ▸ hopen⟩, hw⟩
            exact hdelivered.trans (by omega)
        · split_ifs
          · exact hstate
          · exact hstate
      · have hlt : s.rcvNxt < t.seqno := by omega
        obtain ⟨s', hok, hf, hstate, hrcv⟩ := reass_ahead h hest ht hlt hdata
        obtain ⟨needoutput', hok'⟩ := dataInput_reass cfg needoutput hcond hin hok
        rw [hold, hrcv, hnext, if_neg (lt_irrefl next)] at hok'
        exact ⟨s'.setAcknow, 0, needoutput', next, hok',
          hf.sends ((Sends.refl s').of_eq rfl rfl rfl), hstate,
          fun hfin => (Bool.false_ne_true hfin).elim⟩
  · have hcond : ¬ ((0 < t.datalen ∨ t.tiflags.has .fin = true) ∧ s.state ≠ .closeWait) :=
      fun hc => hdata (ht.tiflags ▸ hc.1)
    have hzero : t.length = 0 := by
      have hdatalen := ht.datalen
      have hnot := (not_or.mp hdata).1
      omega
    refine ⟨s, _, _, next, by rw [dataInput, if_neg hcond]; rfl, ?_, rfl, by simp⟩
    rwa [union_bytes_of_nil h hest ht hzero]

end Data

theorem Follows.finInput {tiflags : TcpFlag} (h : Follows irs last got next s)
    (hest : s.state = .established) (hf : tiflags.has .fin = true → next = last) :
    Follows irs last got next (s.finInput tiflags) := by
  unfold FullTcp.finInput
  split_ifs with hfin
  · have hstate : (s.setAcknow.setRcvNxt (s.rcvNxt + 1)).state = .established := hest
    dsimp only
    rw [if_pos hstate]
    obtain rfl := hf hfin
    obtain ⟨as, hw⟩ := h.queue
    have hnext := h.established hest
    obtain rfl := hw.eq_nil hnext.ge
    have hw' : ({ s.rq with rcvNxt := s.rcvNxt + 1 } : ReassemblyQueue).Waiting [] next got :=
      hw.advance fun x hx => (h.within x hx).trans (hnext ▸ Int.lt_succ next)
    exact ⟨h.least, h.within, h.delivered, .inr ⟨congrArg (· + 1) hnext, rfl, nofun⟩, [], hw'⟩
  · exact h

/-! ## Segments -/

theorem sends_trim : Sends s (s.trim p).1 := by
  rcases trim_fst (s := s) (p := p) with heq | heq <;> rw [heq]
  · exact .refl s
  · exact (Sends.refl s).of_eq rfl rfl rfl

theorem trim_state : (s.trim p).1.state = s.state := by
  rcases trim_fst (s := s) (p := p) with heq | heq <;> rw [heq]
  rfl

theorem trim_covers (ackno : ℤ) : (s.trim p).1.covers ackno = s.covers ackno := by
  rcases trim_fst (s := s) (p := p) with heq | heq <;> rw [heq]
  rfl

theorem sends_dropWithReset : Sends s (s.dropWithReset p t) := by
  have hsend : ∀ seqno ackno flags datalen reason,
      Sends s (s.sendpacket seqno ackno flags datalen reason) := fun _ _ _ _ _ =>
    ((Sends.refl s).emit (e := .sendpacket ..) rfl).of_eq rfl rfl rfl
  unfold dropWithReset
  split_ifs
  · exact hsend ..
  · exact hsend ..

/-- The way that a segment takes after trimming: it is dropped before its data is reached, or the
data is processed. -/
theorem slowPath_cases (cfg : FullTcpConfig) (s : FullTcp) (p : TcpSegment) :
    (∃ s', s.slowPath cfg p = .ok s' ∧ Sends s s' ∧
      ((s.trim p).2.tiflags.has .syn = true ∨ (s.trim p).2.tiflags.has .ack = false ∨
        (s.trim p).2.datalen = 0 ∨ s.covers p.ackno = false)) ∨
    ∃ s' needoutput, Sends s s' ∧ s'.state = s.state ∧ s.covers p.ackno = true ∧
      (s.trim p).2.tiflags.has .ack = true ∧
      s.slowPath cfg p = (s'.dataInput cfg p (s.trim p).2 needoutput).map fun r =>
        (r.1.finInput r.2.1).finalOutput cfg r.2.2 := by
  have htrim : Sends s (s.trim p).1 := sends_trim
  unfold slowPath
  dsimp only
  split_ifs with hsyn hack
  · exact .inl ⟨_, rfl, htrim.trans sends_dropWithReset, .inl hsyn⟩
  · have hf : Acked.Follows (s.trim p).1 p.ackno (s.trim p).2.datalen
        ((s.trim p).1.ackInput cfg p.ackno (s.trim p).2.datalen (s.trim p).2.dupseg) :=
      follows_ackInput _
    cases hr : (s.trim p).1.ackInput cfg p.ackno (s.trim p).2.datalen (s.trim p).2.dupseg with
    | drop s' =>
      rw [hr] at hf
      exact .inl ⟨s', rfl, htrim.trans hf.1, .inr (.inr (trim_covers p.ackno ▸ hf.2))⟩
    | step6 s' needoutput =>
      rw [hr] at hf
      refine .inr ⟨s', needoutput, htrim.trans hf.1, hf.2.1.trans trim_state,
        trim_covers p.ackno ▸ hf.2.2, hack, ?_⟩
      dsimp only
      cases s'.dataInput cfg p (s.trim p).2 needoutput <;> rfl
  · exact .inl ⟨_, rfl, htrim, .inr (.inl (eq_false_of_ne_true hack))⟩

/-- Nothing new is received with a segment of which nothing is left. -/
theorem Follows.slowPath_quiet (cfg : FullTcpConfig) (h : Follows irs last got next s)
    (hq : ¬ ((0 < (s.trim p).2.datalen ∨ (s.trim p).2.tiflags.has .fin = true) ∧
      s.state ≠ .closeWait)) :
    ∃ s', s.slowPath cfg p = .ok s' ∧ Follows irs last got next s' := by
  rcases slowPath_cases cfg s p with
    ⟨s', hok, hs, -⟩ | ⟨s', needoutput, hs, hstate, -, -, hok⟩
  · exact ⟨s', hok, h.sends hs⟩
  · rw [← hstate] at hq
    have hfin : s'.finInput ((s.trim p).2.tiflags &&& ~~~.fin) = s' :=
      if_neg (by rw [TcpFlag.has_and_not]; exact Bool.false_ne_true)
    refine ⟨s'.finalOutput cfg needoutput, ?_, (h.sends hs).sends (sends_finalOutput _)⟩
    rw [hok, dataInput, if_neg hq]
    exact congrArg (fun s => Except.ok (s.finalOutput cfg needoutput)) hfin

/-- A segment of which something is left is received, if its data is processed. -/
theorem Follows.slowPath_cut (h : Follows irs last got next s) (hest : s.state = .established)
    (ht : Cut irs last s p (s.trim p).2) (hirs : 0 ≤ irs) (hlast : last < 2 ^ 31) :
    ∃ s' next', s.slowPath cfg p = .ok s' ∧
      Follows irs last (if s.accepts p then got ∪ p.bytes else got) next' s' := by
  rcases slowPath_cases cfg s p with
    ⟨s', hok, hs, hwhy⟩ | ⟨s', needoutput, hs, hstate, hcovers, hack, hok⟩
  · refine ⟨s', next, hok, ?_⟩
    split_ifs with haccepts
    · obtain ⟨hack, hcovers⟩ := Bool.and_eq_true_iff.mp haccepts
      rw [ht.tiflags, ht.syn, hack, hcovers] at hwhy
      have hzero : (s.trim p).2.length = 0 := ht.datalen.symm.trans (by simpa using hwhy)
      rw [union_bytes_of_nil h hest ht hzero]
      exact h.sends hs
    · exact h.sends hs
  · have haccepts : s.accepts p = true := Bool.and_eq_true_iff.mpr ⟨ht.tiflags ▸ hack, hcovers⟩
    have ht' : Cut irs last s' p (s.trim p).2 :=
      ⟨ht.syn, ht.first, ht.within, ht.fin, ht.tiflags, hs.rcvNxt ▸ ht.seqno, ht.datalen, ht.ends,
        ht.length⟩
    obtain ⟨s'', tiflags, needoutput', next', hok', hf, hstate', hfin⟩ :=
      follows_dataInput (h.sends hs) (hstate.trans hest) ht' cfg needoutput hirs hlast
    rw [if_pos haccepts]
    refine ⟨_, next', by rw [hok, hok']; rfl, ?_⟩
    exact (hf.finInput (hstate'.trans (hstate.trans hest)) hfin).sends (sends_finalOutput _)

/-- The segment is trimmed and processed, or nothing of it is new. -/
theorem Follows.slowPath (h : Follows irs last got next s) (hs : s.state.receiving = true)
    (hp : p.InStream irs last) (hirs : 0 ≤ irs) (hlast : last < 2 ^ 31) (hopen : irs < last) :
    ∃ s' next', s.slowPath cfg p = .ok s' ∧
      Follows irs last (if s.accepts p then got ∪ p.bytes else got) next' s' := by
  have hquiet : got ∪ p.bytes = got →
      ¬ ((0 < (s.trim p).2.datalen ∨ (s.trim p).2.tiflags.has .fin = true) ∧
        s.state ≠ .closeWait) → ∃ s' next', s.slowPath cfg p = .ok s' ∧
        Follows irs last (if s.accepts p then got ∪ p.bytes else got) next' s' := fun hb hq => by
    obtain ⟨s', hok, hf⟩ := h.slowPath_quiet cfg hq
    refine ⟨s', next, hok, ?_⟩
    rwa [hb, ite_self]
  by_cases hest : s.state = .established
  · have hnext := h.established hest
    have hle := h.le_last hopen
    rcases trim_snd hp hirs hlast (by rw [hnext]; exact h.least.1.1) (hnext.trans_le hle) with
      hspent | hcut
    · have hb : got ∪ p.bytes = got := h.union_eq fun x hx hx' => hnext ▸ hspent.received x hx hx'
      refine hquiet hb fun hq => ?_
      rw [hspent.datalen, hspent.tiflags] at hq
      simp at hq
    · exact h.slowPath_cut hest hcut hirs hlast
  · have hclosed : s.state = .closeWait := by
      unfold TcpState.receiving at hs
      split at hs
      · contradiction
      · assumption
      · cases hs
    obtain ⟨hrcv, hend⟩ := h.closeWait hclosed
    have hb : got ∪ p.bytes = got := h.union_eq fun x hx hx' => by
      cases hp with
      | syn hsyn hfin hseqno hlen => omega
      | piece hsyn hseqno hlen hlast' hfin => omega
      | pureAck hsyn hfin hseqno hlen => omega
    exact hquiet hb fun hq => hq.2 hclosed

/-- Header prediction hands the data on at once. -/
theorem Follows.fastData (cfg : FullTcpConfig) (h : Follows irs last got next s)
    (hpredict : s.predictsData p = true) (hp : p.InStream irs last) (hirs : 0 ≤ irs)
    (hlast : last < 2 ^ 31) :
    s.accepts p = true ∧ ∃ next', Follows irs last (got ∪ p.bytes) next' (s.fastData cfg p) := by
  obtain ⟨hok, hlen, hackno, hempty⟩ := of_decide_eq_true hpredict
  obtain ⟨hest, hack, hsyn, -, -, hseqno, -, -⟩ := of_decide_eq_true hok
  have hcovers : s.covers p.ackno = true := decide_eq_true (.inl hackno.le)
  refine ⟨Bool.and_eq_true_iff.mpr ⟨hack, hcovers⟩, ?_⟩
  cases hp with
  | syn hsyn' hfin hseqno hlen' => exact absurd hsyn' hsyn
  | pureAck hsyn' hfin hseqno hlen' => exact absurd hlen' hlen
  | piece hsyn' hlo hpos hwithin hfin =>
    have hcut : Cut irs last s p ⟨p.seqno, p.length, p.length, p.flags, false⟩ :=
      ⟨hsyn', hlo, hwithin, hfin, rfl, by rw [hseqno, max_self], rfl, rfl, hpos⟩
    have hdelivered : ((s.setRcvNxt (s.rcvNxt + p.length)).setDelack.recvBytes p.length).delivered =
        s.delivered + p.length := by
      rw [delivered_recvBytes, wrap32_of_lt (by omega) (by omega)]
      rfl
    have hf : Follows irs last (got ∪ p.bytes) (p.seqno + p.length)
        ((s.setRcvNxt (s.rcvNxt + p.length)).setDelack.recvBytes p.length) :=
      follows_inOrder h hest hcut hseqno hempty rfl hdelivered rfl
    refine ⟨p.seqno + p.length, hf.sends ?_⟩
    exact (Sends.refl _).next sends_sendMuch

/-- Every segment of the stream is received. -/
theorem Follows.recv (h : Follows irs last got next s) (hs : s.state.receiving = true)
    (hp : p.InStream irs last) (hirs : 0 ≤ irs) (hlast : last < 2 ^ 31) (hopen : irs < last)
    (nopredict : Bool) :
    ∃ s' next', s.recv cfg p nopredict = .ok s' ∧
      Follows irs last (if s.accepts p then got ∪ p.bytes else got) next' s' := by
  unfold FullTcp.recv
  by_cases hack : ¬ nopredict = true ∧ s.predictsAck cfg p = true
  · obtain ⟨-, hlen, -⟩ := of_decide_eq_true hack.2
    have hsends : Sends s (s.fastAck cfg p) := (sends_newack _).trans sends_sendMuch
    rw [if_pos hack, TcpSegment.bytes, hlen, add_zero, Set.Ico_self, Set.union_empty, ite_self]
    exact ⟨_, next, rfl, h.sends hsends⟩
  · rw [if_neg hack]
    by_cases hdata : ¬ nopredict = true ∧ s.predictsData p = true
    · obtain ⟨haccepts, next', hf⟩ := h.fastData cfg hdata.2 hp hirs hlast
      rw [if_pos hdata, if_pos haccepts]
      exact ⟨_, next', rfl, hf⟩
    · rw [if_neg hdata]
      exact h.slowPath hs hp hirs hlast hopen

/-! ## Runs -/

/-- The timers of an agent. -/
inductive TcpTimer
  | rtx
  | delsnd
  | delack
  deriving DecidableEq

/-- `timeout`. For the first two timers the segments are marked with `PF_TIMEOUT`. -/
def timeout (cfg : FullTcpConfig) (s : FullTcp) : TcpTimer → FullTcp
  | .rtx => (s.timeoutAction cfg).sendMuch cfg true .timeout cfg.maxburst
  | .delsnd => { s with delsndPending := false }.sendMuch cfg true .timeout cfg.maxburst
  | .delack =>
    if s.flags.delack then
      { s with flags := { s.flags with delack := false, acknow := true } }.sendMuch cfg true
        .normal 0
    else s

/-- `advance_bytes`, where the application has more data to send. -/
def advanceBytes (cfg : FullTcpConfig) (s : FullTcp) (nb : ℤ) : FullTcp :=
  if s.state = .established then
    { s with curseq := (if s.curseq < cfg.iss then cfg.iss else s.curseq) + nb }.sendMuch cfg false
      .normal cfg.maxburst
  else s

theorem sends_timeout (tno : TcpTimer) : Sends s (s.timeout cfg tno) := by
  cases tno with
  | rtx => exact sends_timeoutAction.trans sends_sendMuch
  | delsnd =>
    have hexpired : Sends s { s with delsndPending := false } := (Sends.refl s).of_eq rfl rfl rfl
    exact hexpired.trans sends_sendMuch
  | delack =>
    have hnow : Sends s { s with flags := { s.flags with delack := false, acknow := true } } :=
      (Sends.refl s).of_eq rfl rfl rfl
    exact (Sends.refl s).next (hnow.trans sends_sendMuch)

theorem sends_advanceBytes (nb : ℤ) : Sends s (s.advanceBytes cfg nb) := by
  have hmore : ∀ curseq, Sends s { s with curseq := curseq } := fun _ =>
    (Sends.refl s).of_eq rfl rfl rfl
  exact (Sends.refl s).next ((hmore _).trans sends_sendMuch)

end FullTcp

/-- What an agent reacts to. -/
inductive TcpInput
  | segment (p : TcpSegment) (nopredict : Bool)
  | timeout (tno : FullTcp.TcpTimer)
  | advance (nbytes : ℤ)

namespace TcpInput

def step (cfg : FullTcpConfig) (s : FullTcp) : TcpInput → Except FullTcpError FullTcp
  | segment p nopredict => s.recv cfg p nopredict
  | timeout tno => .ok (s.timeout cfg tno)
  | advance nbytes => .ok (s.advanceBytes cfg nbytes)

/-- The segments that arrive are pieces of the stream. -/
def Legal (irs last : ℤ) : TcpInput → Prop
  | segment p _ => p.InStream irs last
  | timeout _ | advance _ => True

instance (irs last : ℤ) : DecidablePred (Legal irs last)
  | segment p _ => inferInstanceAs (Decidable (p.InStream irs last))
  | timeout _ | advance _ => inferInstanceAs (Decidable True)

/-- The segments whose data has been processed. -/
def record (s : FullTcp) (l : List TcpSegment) : TcpInput → List TcpSegment
  | segment p _ => if s.accepts p then p :: l else l
  | timeout _ | advance _ => l

end TcpInput

/-- A connection that has been established, until the agent itself closes it, beside the segments
that it has accepted. -/
def stream (cfg : FullTcpConfig) (irs last : ℤ) :
    Machine (FullTcp × List TcpSegment) TcpInput FullTcpError :=
  Machine.withHistory
    { Init := fun s => s.state = .established ∧ s.rq.Fresh (irs + 1) ∧ s.delivered = 0
      Enabled := fun s x => s.state.receiving = true ∧ x.Legal irs last
      step := fun s x => x.step cfg s }
    [] fun s x _ l => x.record s l

instance (cfg : FullTcpConfig) (irs last : ℤ) (q : FullTcp × List TcpSegment) (x : TcpInput) :
    Decidable ((stream cfg irs last).Enabled q x) :=
  inferInstanceAs (Decidable (q.1.state.receiving = true ∧ x.Legal irs last))

/-- The bytes of some segments. -/
def bytesOf (l : List TcpSegment) : Set ℤ := {x | ∃ p ∈ l, x ∈ p.bytes}

variable {cfg : FullTcpConfig} {irs last : ℤ}

theorem bytesOf_cons (p : TcpSegment) (l : List TcpSegment) :
    bytesOf (p :: l) = bytesOf l ∪ p.bytes := by
  ext x
  simp only [bytesOf, List.mem_cons, or_and_right, exists_or, exists_eq_left, Set.mem_ofPred_eq,
    Set.mem_union]
  exact or_comm

theorem follows_invariant (hirs : 0 ≤ irs) (hlast : last < 2 ^ 31) (hopen : irs < last) :
    (stream cfg irs last).Invariant fun q =>
      ∃ next, FullTcp.Follows irs last (bytesOf q.2) next q.1 where
  init q hi := by
    obtain ⟨⟨hest, hfresh, hdelivered⟩, hl⟩ := hi
    have hnone : bytesOf q.2 = ∅ := by simp [hl, bytesOf]
    have hw : q.1.rq.Waiting [] last ∅ :=
      ⟨hfresh.holds.stores, by simp [ReassemblyQueue.covered], by simp [ReassemblyQueue.Ahead],
        by simp, by simp⟩
    rw [hnone]
    refine ⟨irs + 1, ⟨⟨Int.lt_succ irs, by simp⟩, fun x hx => hx.1⟩, by simp, ?_, .inl ⟨?_, ?_⟩,
      [], hw⟩
    · rw [hdelivered, sub_self]
    · exact hfresh.rcvNxt
    · rw [hest]
      decide
  step q x q' h he hs := by
    obtain ⟨next, h⟩ := h
    obtain ⟨hs, hl⟩ := (Machine.withHistory_step_iff _).mp hs
    rw [hl]
    cases x with
    | segment p nopredict =>
      obtain ⟨s', next', hok, hf⟩ := h.recv he.1 he.2 hirs hlast hopen nopredict
      obtain rfl : s' = q'.1 := Except.ok.inj (hok.symm.trans hs)
      refine ⟨next', ?_⟩
      unfold TcpInput.record
      dsimp only
      split_ifs at hf ⊢
      · rwa [bytesOf_cons]
      · exact hf
    | timeout tno =>
      have hs : q.1.timeout cfg tno = q'.1 := Except.ok.inj hs
      exact ⟨next, hs ▸ h.sends (FullTcp.sends_timeout tno)⟩
    | advance nbytes =>
      have hs : q.1.advanceBytes cfg nbytes = q'.1 := Except.ok.inj hs
      exact ⟨next, hs ▸ h.sends (FullTcp.sends_advanceBytes nbytes)⟩

end Ns2XPass
