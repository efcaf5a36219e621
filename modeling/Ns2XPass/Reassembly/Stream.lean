import Ns2XPass.Reassembly.Ends

/-! # Segments of one stream

When all segments are pieces of one stream, whose end alone bears a FIN, the
queue holds what has arrived ahead of `rcv_nxt_`, and a FIN is received after
all data in front of it.
-/

namespace Ns2XPass

namespace ReassemblyQueue

variable {rq rq' : ReassemblyQueue} {as bs : List ℕ} {s e last : TcpSeq} {f : TcpFlag} {a : ℕ}
  {got : Set TcpSeq}

/-- The blocks hold what has arrived ahead of `rcv_nxt_`. A block that bears a FIN ends with the
stream, and so does one that is empty. -/
structure Waiting (rq : ReassemblyQueue) (as : List ℕ) (last : TcpSeq) (got : Set TcpSeq) :
    Prop where
  stores : rq.Stores as
  covered : rq.covered as = got ∩ Set.Ici rq.rcvNxt
  ahead : rq.Ahead as last
  fin : ∀ a ∈ as, Has (rq.pflags a) 0 → rq.endseq a = last
  empty : ∀ a ∈ as, rq.endseq a ≤ rq.startseq a → rq.endseq a = last

theorem last_mem_covered (ha : a ∈ as) (hne : rq.startseq a < rq.endseq a) :
    rq.endseq a - 1 ∈ rq.covered as :=
  ⟨a, ha, Int.le_sub_one_iff.mpr hne, Int.sub_one_lt_iff.mpr le_rfl⟩

namespace Waiting

variable (h : rq.Waiting as last got)
include h

theorem rcvNxt_notMem : rq.rcvNxt ∉ got := fun hm => by
  obtain ⟨a, ha, hle, -⟩ : rq.rcvNxt ∈ rq.covered as := h.covered ▸ ⟨hm, Set.self_mem_Ici⟩
  exact (h.ahead a ha).1.not_ge hle

theorem contiguous : ContiguousTo (rq.covered as) rq.rcvNxt := by
  rw [h.covered]
  exact ⟨fun hm => h.rcvNxt_notMem hm.1, fun x hx hlt => absurd hx.2 hlt.not_ge⟩

theorem mem_covered {x : TcpSeq} (hx : x ∈ rq.covered as) : rq.rcvNxt < x ∧ x < last := by
  obtain ⟨a, ha, hle, hlt⟩ := hx
  exact ⟨(h.ahead a ha).1.trans_le hle, hlt.trans_le (h.ahead a ha).2⟩

/-- At the end of the stream nothing is left to wait for. -/
theorem eq_nil (hlast : last ≤ rq.rcvNxt) : as = [] := by
  refine List.eq_nil_iff_forall_not_mem.mpr fun a ha => ?_
  obtain ⟨hstart, hend⟩ := h.ahead a ha
  exact (hstart.trans_le ((h.stores.ordered.le a ha).trans hend)).not_ge hlast

variable (hfin : Has f 0 → e = last)
include hfin

/-- A FIN comes from the end of the stream. -/
theorem le_of_origin {x : TcpSeq} (ho : Origin rq as e f 0 x) : last ≤ x := by
  rcases ho with ⟨hf, hle⟩ | ⟨a, ha, hf, hle⟩
  · exact (hfin hf).ge.trans hle
  · exact (h.fin a ha hf).ge.trans hle

/-- The queue after a segment has been added that is not empty. -/
theorem gained (hse : s < e) (hel : e ≤ last) (rqflags : RqFlag) :
    ∃ rq' flags bs, rq.add s e f rqflags = .ok (rq', flags) ∧
      Gained rq as s e f rq' flags bs ∧
      (∀ x ∈ rq'.covered bs, x < last) ∧
      (∀ b ∈ bs, rq'.endseq b ≤ last) ∧
      (∀ b ∈ bs, Has (rq'.pflags b) 0 → rq'.endseq b = last) ∧
      ∀ b ∈ bs, rq'.endseq b ≤ rq'.startseq b →
        rq.rcvNxt < rq'.startseq b ∧ rq'.endseq b = last := by
  have hpos : ∀ a ∈ as, rq.endseq a ≤ s → rq.startseq a < rq.endseq a := fun a ha hle => by
    by_contra hempty
    exact ((h.empty a ha (not_lt.mp hempty)).ge.trans hle).not_gt (hse.trans_le hel)
  obtain ⟨rq', flags, bs, hok, hg⟩ := h.stores.add hpos hse f rqflags
  have hcov : ∀ x ∈ rq'.covered bs, x < last := fun x hx => by
    rw [hg.covered] at hx
    rcases hx with hx | hx
    · exact (h.mem_covered hx).2
    · exact hx.2.trans_le hel
  have hempty : ∀ b ∈ bs, rq'.endseq b ≤ rq'.startseq b →
      rq.rcvNxt < rq'.startseq b ∧ rq'.endseq b = last := fun b hb hle => by
    obtain ⟨hb, hstart, hend⟩ := hg.marks.empties b hb hle
    rw [← hstart, ← hend]
    exact ⟨(h.ahead b hb).1, h.empty b hb (hend.trans_le (hle.trans hstart.ge))⟩
  have hle : ∀ b ∈ bs, rq'.endseq b ≤ last := fun b hb => by
    rcases lt_or_ge (rq'.startseq b) (rq'.endseq b) with hlt | hge
    · exact Int.sub_one_lt_iff.mp (hcov _ (last_mem_covered hb hlt))
    · exact (hempty b hb hge).2.le
  refine ⟨rq', flags, bs, hok, hg, hcov, hle, fun b hb hf => ?_, hempty⟩
  exact (hle b hb).antisymm (h.le_of_origin hfin (hg.marks.kept b hb 0 hf))

/-- A segment arrives ahead of `rcv_nxt_`. One that is empty lies at the end of the stream. -/
theorem add_ahead (hs : rq.rcvNxt < s) (hse : s ≤ e) (hel : e ≤ last) (hend : s = e → s = last)
    (rqflags : RqFlag) :
    ∃ rq' flags bs, rq.add s e f rqflags = .ok (rq', flags) ∧
      rq'.Waiting bs last (got ∪ Set.Ico s e) ∧ rq'.rcvNxt = rq.rcvNxt := by
  rcases hse.lt_or_eq with hlt | rfl
  · obtain ⟨rq', flags, bs, hok, hg, -, hle, hf, hempty⟩ := h.gained hfin hlt hel rqflags
    have habove : ∀ x ∈ rq'.covered bs, rq.rcvNxt < x := fun x hx => by
      rw [hg.covered] at hx
      rcases hx with hx | hx
      · exact (h.mem_covered hx).1
      · exact hs.trans_le hx.1
    have hnext : rq'.rcvNxt = rq.rcvNxt :=
      (hg.least h.contiguous hs.le).unique (isLeast_self fun hm => (habove _ hm).false)
    have hsub : Set.Ico s e ⊆ Set.Ici rq.rcvNxt := fun x hx => hs.le.trans hx.1
    refine ⟨rq', flags, bs, hok, ⟨hg.stores, ?_, fun b hb => ?_, hf, fun b hb => ?_⟩, hnext⟩
    · rw [hg.covered, h.covered, hnext, Set.union_inter_distrib_right, Set.inter_eq_left.mpr hsub]
    · rw [hnext]
      rcases lt_or_ge (rq'.startseq b) (rq'.endseq b) with hne | hge
      · exact ⟨habove _ ⟨b, hb, le_rfl, hne⟩, hle b hb⟩
      · exact ⟨(hempty b hb hge).1, hle b hb⟩
    · exact fun hge => (hempty b hb hge).2
  · obtain rfl := hend rfl
    obtain ⟨rq', flags, bs, hok, he⟩ := h.stores.add_end h.ahead hs f rqflags
    refine ⟨rq', flags, bs, hok, ⟨he.stores, ?_, he.ahead, fun b hb hf => ?_, fun b hb hge => ?_⟩,
      he.rcvNxt⟩
    · rw [he.covered, h.covered, he.rcvNxt, Set.Ico_self, Set.union_empty]
    · exact (he.ahead b hb).2.antisymm (h.le_of_origin hfin (he.kept b hb 0 hf))
    · rcases he.empties b hb hge with heq | ⟨hb, hstart, hend⟩
      · exact heq
      · rw [← hend]
        exact h.empty b hb (hend.trans_le (hge.trans hstart.ge))

end Waiting

/-- Nothing is waiting, and `rcv_nxt_` is set to `r`. -/
theorem Waiting.advance (h : rq.Waiting [] last got) {got' : Set TcpSeq} {r : TcpSeq}
    (hgot : ∀ x ∈ got', x < r) :
    ({ rq with rcvNxt := r } : ReassemblyQueue).Waiting [] last got' where
  stores := ⟨⟨h.stores.threaded.linked, h.stores.threaded.stacked⟩, h.stores.ordered,
    h.stores.total⟩
  covered := by
    rw [ReassemblyQueue.covered, cover_nil, eq_comm, Set.eq_empty_iff_forall_notMem]
    exact fun x hx => (hgot x hx.1).not_ge hx.2
  ahead := by simp [Ahead]
  fin := by simp
  empty := by simp

theorem Waiting.lt_rcvNxt (h : rq.Waiting [] last got) {x : TcpSeq} (hx : x ∈ got) :
    x < rq.rcvNxt := by
  by_contra hge
  have hm : x ∈ rq.covered [] := h.covered ▸ ⟨hx, not_lt.mp hge⟩
  rwa [ReassemblyQueue.covered, cover_nil] at hm

theorem Waiting.eq_nil_of_empty (h : rq.Waiting as last got) (he : rq.empty = true) : as = [] := by
  have hhead : rq.fifo.head = none := Option.isNone_iff_eq_none.mp he
  rw [h.stores.threaded.spells.head_eq] at hhead
  exact List.head?_eq_none_iff.mp hhead

theorem Stores.listed (h : rq.Stores as) : ∃ stack, rq.Listed as stack := by
  obtain ⟨stack, hspells, hsame⟩ := h.threaded.stacked
  exact ⟨stack, h.threaded.linked, hspells, hsame⟩

/-- The blocks that `clearto` leaves are those that end behind the sequence number. -/
theorem Stores.clearto_above (h : rq.Stores as) (seq : TcpSeq) :
    ∃ rq' flags bs, rq.clearto seq = .ok (rq', flags) ∧ Cleared rq as seq rq' flags bs ∧
      ∀ b ∈ bs, seq < rq.endseq b := by
  obtain ⟨rq', flags, bs, hok, hc⟩ := h.clearto seq
  obtain ⟨stack, hl⟩ := h.listed
  obtain ⟨rq'', flags', hok', hc'⟩ := hl.clearto h.ordered seq
  obtain ⟨rfl, rfl⟩ := Prod.mk.inj (Except.ok.inj (hok.symm.trans hok'))
  obtain ⟨stack', hl'⟩ := hc.stores.listed
  have hbs : bs = as.filter fun a => seq < rq.endseq a :=
    hl'.blocks_eq.symm.trans hc'.listed.blocks_eq
  refine ⟨rq', flags, bs, hok, hc, fun b hb => ?_⟩
  rw [hbs] at hb
  exact of_decide_eq_true (List.mem_filter.mp hb).2

/-- A segment in order arrives, and what it completes is taken off the queue. A FIN is received
when the end of the stream has been reached. -/
theorem Waiting.fill (h : rq.Waiting as last got) (hfin : Has f 0 → e = last)
    (hse : rq.rcvNxt < e) (hel : e ≤ last) (rqflags : RqFlag) :
    ∃ rq₁ flags rq₂ cleared bs, rq.add rq.rcvNxt e f rqflags = .ok (rq₁, flags) ∧
      rq₁.cleartonxt = .ok (rq₂, cleared) ∧
      rq₂.Waiting bs last (got ∪ Set.Ico rq.rcvNxt e) ∧
      IsLeast {x | rq.rcvNxt ≤ x ∧ x ∉ got ∪ Set.Ico rq.rcvNxt e} rq₂.rcvNxt ∧
      (Has (flags ||| cleared) 0 → last ≤ rq₂.rcvNxt) := by
  obtain ⟨rq₁, flags, bs, hok, hg, -, hle, hf, hempty⟩ := h.gained hfin hse hel rqflags
  obtain ⟨rq₂, cleared, cs, hok₂, hc, habove⟩ := hg.stores.clearto_above rq₁.rcvNxt
  have hleast := hg.least h.contiguous le_rfl
  have hset : {x | rq.rcvNxt ≤ x ∧ x ∉ rq₁.covered bs} =
      {x | rq.rcvNxt ≤ x ∧ x ∉ got ∪ Set.Ico rq.rcvNxt e} := by
    rw [hg.covered, h.covered]
    ext x
    simp only [Set.mem_ofPred_eq, Set.mem_union, Set.mem_inter_iff, Set.mem_Ici]
    tauto
  -- A block that reaches back to the end of the run lies below it.
  have hreach : ∀ b ∈ bs, rq₁.startseq b ≤ rq₁.rcvNxt → rq₁.endseq b ≤ rq₁.rcvNxt :=
    fun b hb hle => not_lt.mp fun hlt => hleast.1.2 ⟨b, hb, hle, hlt⟩
  have hlast : ∀ c ∈ cs, rq₂.endseq c ≤ rq₂.startseq c → rq₂.endseq c = last := fun c hc' hge => by
    have hstart := hc.empties c hc' hge
    rw [hstart] at hge
    rw [hc.endseq] at hge ⊢
    exact (hempty c (hc.subset hc') hge).2
  refine ⟨rq₁, flags, rq₂, cleared, cs, hok, hok₂,
    ⟨hc.stores, ?_, fun c hc' => ?_, fun c hc' hf' => ?_, hlast⟩, ?_, fun hf' => ?_⟩
  · rw [hc.covered, hc.rcvNxt, hg.covered, h.covered]
    ext x
    have hle : rq₁.rcvNxt ≤ x → rq.rcvNxt ≤ x := hleast.1.1.trans
    simp only [Set.mem_union, Set.mem_inter_iff, Set.mem_Ici]
    tauto
  · rw [hc.rcvNxt]
    refine ⟨?_, (congrFun hc.endseq c).trans_le (hle c (hc.subset hc'))⟩
    rcases lt_or_ge (rq₂.startseq c) (rq₂.endseq c) with hne | hge
    · have hm : rq₂.startseq c ∈ rq₂.covered cs := ⟨c, hc', le_rfl, hne⟩
      rw [hc.covered] at hm
      exact lt_of_le_of_ne hm.2 fun heq => hleast.1.2 (heq ▸ hm.1)
    · rw [hc.endseq] at hge
      exact (habove c hc').trans_le hge
  · rw [hc.pflags] at hf'
    rw [hc.endseq]
    exact hf c (hc.subset hc') hf'
  · rw [hc.rcvNxt, ← hset]
    exact hleast
  · rw [hc.rcvNxt]
    rcases has_or.mp hf' with hf' | hf'
    · obtain ⟨b, hb, hstart, ho⟩ := hg.marks.given 0 hf'
      exact (h.le_of_origin hfin ho).trans (hreach b hb (hstart.trans hleast.1.1))
    · obtain ⟨b, hb, hbit, hstart⟩ := hc.given 0 hf'
      exact (hf b hb hbit).ge.trans (hreach b hb hstart)

end ReassemblyQueue

end Ns2XPass
