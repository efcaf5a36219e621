import Ns2XPass.Reassembly.Calls

/-! # The flags of the segments

A history variable records the segments that are added, with the flags of their
headers, and what clearing leaves of them. Every block bears the flags of the
segments that lie in it, as long as no block whose flags another one does not
bear is eclipsed or takes in all that is added.
-/

namespace Ns2XPass

variable {f g : TcpFlag} {i : ℕ} {lo hi s e seq rcvnxt : TcpSeq}

theorem flag_ext (h : ∀ i, Has f i ↔ Has g i) : f = g :=
  BitVec.eq_of_getLsbD_eq fun i _ => Bool.eq_iff_iff.mpr (h i)

/-- The flags `f` are among the flags `g`. -/
def Among (f g : TcpFlag) : Prop := f ||| g = g

instance : Decidable (Among f g) := inferInstanceAs (Decidable (f ||| g = g))

theorem Among.has (h : Among f g) (hf : Has f i) : Has g i := by
  rw [← h, has_or]
  exact .inl hf

/-- A segment that has been added, with the flags of its header. -/
structure Added where
  lo : TcpSeq
  hi : TcpSeq
  flags : TcpFlag

variable {l : List Added} {x : Added}

/-- The OR of the flags of some segments. -/
def flagsOf {α : Type*} (flags : α → TcpFlag) (l : List α) : TcpFlag :=
  l.foldr (fun x f => flags x ||| f) 0

theorem has_flagsOf {α : Type*} {flags : α → TcpFlag} {l : List α} :
    Has (flagsOf flags l) i ↔ ∃ x ∈ l, Has (flags x) i := by
  induction l with
  | nil => simp [flagsOf, Has]
  | cons x l ih =>
    have hcons : flagsOf flags (x :: l) = flags x ||| flagsOf flags l := rfl
    rw [hcons, has_or, ih]
    simp

/-- The OR of the flags of the segments that lie between two sequence numbers. -/
def flagsIn (l : List Added) (lo hi : TcpSeq) : TcpFlag :=
  flagsOf Added.flags (l.filter fun x => lo ≤ x.lo ∧ x.hi ≤ hi)

theorem has_flagsIn :
    Has (flagsIn l lo hi) i ↔ ∃ x ∈ l, (lo ≤ x.lo ∧ x.hi ≤ hi) ∧ Has x.flags i := by
  simp [flagsIn, has_flagsOf, and_assoc]

/-- What is left of the segments when the queue is cleared up to `seq`. -/
def cutTo (l : List Added) (seq : TcpSeq) : List Added :=
  (l.filter fun x => seq < x.hi).map fun x => { x with lo := max x.lo seq }

theorem mem_cutTo : x ∈ cutTo l seq ↔ ∃ y ∈ l, seq < y.hi ∧ x = { y with lo := max y.lo seq } := by
  simp [cutTo, eq_comm, and_assoc]

namespace ReassemblyQueue

variable {rq rq' : ReassemblyQueue} {as mids stack stack' : List ℕ} {a b : ℕ} {flags : TcpFlag}
  {rqflags : RqFlag} {lost : Option ℕ}

/-- Adding the range loses no flags: those of a block that is eclipsed, or that takes in all that
is added, are among those of the range and of the other blocks that it touches, and if the range
is ignored, it lies in a block with the same flags. -/
def Spares (rq : ReassemblyQueue) (s e : TcpSeq) (f : TcpFlag) : Prop :=
  ¬ rq.Dangling rq.blocks s e ∧
    (∀ a ∈ rq.blocks, rq.Eclipsed rq.blocks s e a ∨ rq.Unreported rq.blocks s e a →
      Among (rq.pflags a)
        (f ||| flagsOf rq.pflags ((rq.touching rq.blocks s e).filter fun b => b ≠ a))) ∧
    (rq.Ignored rq.blocks s e → ∃ a ∈ rq.touching rq.blocks s e, rq.pflags a = f)

instance : Decidable (rq.Spares s e f) := inferInstanceAs (Decidable (_ ∧ _ ∧ _))

/-- Clearing cuts off no flags: those of the segments that are cut off from a block that goes on
are among those of the segments that are left of it. -/
def SparesCut (rq : ReassemblyQueue) (l : List Added) (seq : TcpSeq) : Prop :=
  ∀ b ∈ rq.blocks, seq < rq.endseq b →
    Among (flagsIn (l.filter fun x => x.hi ≤ seq) (rq.startseq b) (rq.endseq b))
      (flagsIn (l.filter fun x => seq < x.hi) (rq.startseq b) (rq.endseq b))

instance : Decidable (rq.SparesCut l seq) :=
  inferInstanceAs (Decidable (∀ b ∈ rq.blocks, _))

/-- Nothing is lost when the flags of the block that is lost are borne by others. -/
theorem Collects.all {x : TcpFlag} (h : Collects rq mids f lost x)
    (hl : ∀ a ∈ lost, Among (rq.pflags a) (f ||| flagsOf rq.pflags (mids.filter fun b => b ≠ a))) :
    ∀ i, Has x i ↔ Has f i ∨ ∃ a ∈ mids, Has (rq.pflags a) i := fun i => by
  rw [h i]
  refine ⟨Or.imp_right fun ⟨a, ha, _, hi⟩ => ⟨a, ha, hi⟩, fun hi => ?_⟩
  rcases hi with hi | ⟨a, ha, hi⟩
  · exact .inl hi
  · by_cases hal : a ∈ lost
    · have hmore := (hl a hal).has hi
      rw [has_or, has_flagsOf] at hmore
      refine hmore.imp_right fun ⟨b, hb, hib⟩ => ⟨b, (List.mem_filter.mp hb).1, fun hbl => ?_, hib⟩
      have hab : b = a := Option.mem_unique hbl hal
      simp [hab] at hb
    · exact .inr ⟨a, ha, hal, hi⟩

/-- The segment lies in the block. -/
def Lies (rq : ReassemblyQueue) (b : ℕ) (x : Added) : Prop :=
  rq.startseq b ≤ x.lo ∧ x.hi ≤ rq.endseq b

/-- Every segment lies in a block, and a block bears the flags of the segments in it. -/
structure Tracks (rq : ReassemblyQueue) (l : List Added) (as stack : List ℕ) : Prop where
  listed : rq.Listed as stack
  ordered : Ordered rq.startseq rq.endseq as
  le : ∀ x ∈ l, x.lo ≤ x.hi
  within : ∀ x ∈ l, ∃ b ∈ as, rq.Lies b x
  pflags : ∀ b ∈ as, ∀ i, Has (rq.pflags b) i ↔ ∃ x ∈ l, rq.Lies b x ∧ Has x.flags i

/-- A segment lies in one block only. -/
theorem lies_unique (hord : Ordered rq.startseq rq.endseq as) (hx : x.lo ≤ x.hi) (ha : a ∈ as)
    (hb : b ∈ as) (hxa : rq.Lies a x) (hxb : rq.Lies b x) : a = b := by
  rcases hord.eq_or_lt ha hb with hab | hab | hba
  · exact hab
  · exact absurd (hxb.1.trans (hx.trans hxa.2)) hab.not_ge
  · exact absurd (hxa.1.trans (hx.trans hxb.2)) hba.not_ge

theorem Keeping.lies_iff (h : rq.Keeping rq' as) (ha : a ∈ as) : rq'.Lies a x ↔ rq.Lies a x := by
  rw [Lies, Lies, (h a ha).1, (h a ha).2.1]

namespace Tracks

variable (h : rq.Tracks l as stack)
include h

theorem pflags_eq (hb : b ∈ as) : rq.pflags b = flagsIn l (rq.startseq b) (rq.endseq b) :=
  flag_ext fun i => by rw [h.pflags b hb, has_flagsIn]; rfl

/-- The new block bears the flags of the segments in it, and they are returned. -/
theorem add (hse : s ≤ e) (hs : rq.Spares s e f) (hi : ¬ rq.Ignored as s e) (rqflags : RqFlag) :
    ∃ rq' flags as' stack' b, rq.add s e f rqflags = .ok (rq', flags) ∧
      rq'.Tracks (⟨s, e, f⟩ :: l) as' stack' ∧ b ∈ as' ∧ rq'.Lies b ⟨s, e, f⟩ ∧
      flags = rq'.pflags b := by
  obtain ⟨hdang, htaken, -⟩ := hs
  rw [h.listed.blocks_eq] at hdang htaken
  obtain ⟨rq', flags, hok, b, stack', he⟩ := h.listed.add h.ordered hse hdang hi f rqflags
  have hord' := he.ordered h.ordered hse
  have hsplit : rq.before as s ++ rq.touching as s e ++ rq.behind as e = as :=
    h.ordered.eq_filters hse
  have hmem : ∀ {a}, a ∈ as → a ∈ rq.touching as s e ∨ a ∈ rq.before as s ++ rq.behind as e :=
    fun ha => by
      rw [← hsplit] at ha
      simp only [List.mem_append] at ha ⊢
      tauto
  have hmem' : ∀ {a}, a ∈ rq.before as s ++ b :: rq.behind as e →
      a = b ∨ a ∈ rq.before as s ++ rq.behind as e := fun ha =>
    List.mem_cons.mp (List.perm_middle.mem_iff.mp ha)
  have hsub : ∀ {a}, a ∈ rq.before as s ++ rq.behind as e →
      a ∈ rq.before as s ++ b :: rq.behind as e := fun ha =>
    List.perm_middle.mem_iff.mpr (List.mem_cons_of_mem b ha)
  have hold : ∀ {a}, a ∈ rq.before as s ++ rq.behind as e → a ∈ as := fun ha => by
    rcases List.mem_append.mp ha with ha | ha
    · exact (List.mem_filter.mp ha).1
    · exact (List.mem_filter.mp ha).1
  -- A segment lies in the new block when it lay in one of those that it replaces.
  have hin : ∀ {a x}, a ∈ rq.touching as s e → rq.Lies a x → rq'.Lies b x := fun ha hx =>
    ⟨(he.hull.lo_le_of_mem _ ha).trans hx.1, hx.2.trans (he.hull.le_hi_of_mem _ ha)⟩
  have hnew : rq'.Lies b ⟨s, e, f⟩ := ⟨he.hull.lo_le, he.hull.le_hi⟩
  have hother : ∀ {a x}, a ∈ rq.before as s ++ rq.behind as e → x.lo ≤ x.hi → rq'.Lies a x →
      ¬ rq'.Lies b x := fun ha hx hxa hxb => by
    obtain rfl := lies_unique hord' hx (hsub ha) (by simp) hxa hxb
    exact he.listed.notMem ha
  have hcover : ∀ i, (Has f i ∨ ∃ a ∈ rq.touching as s e, Has (rq.pflags a) i) ↔
      ∃ x ∈ (⟨s, e, f⟩ :: l : List Added), rq'.Lies b x ∧ Has x.flags i := fun i => by
    rw [List.exists_mem_cons_iff]
    refine or_congr ⟨fun hi => ⟨hnew, hi⟩, And.right⟩ ?_
    constructor
    · rintro ⟨a, ha, hi⟩
      obtain ⟨x, hx, hxa, hi⟩ := (h.pflags a (mem_touching.mp ha).1 i).mp hi
      exact ⟨x, hx, hin ha hxa, hi⟩
    · rintro ⟨x, hx, hxb, hi⟩
      obtain ⟨c, hc, hxc⟩ := h.within x hx
      rcases hmem hc with hct | hcr
      · exact ⟨c, hct, (h.pflags c hc i).mpr ⟨x, hx, hxc, hi⟩⟩
      · exact absurd hxb (hother hcr (h.le x hx) ((he.keeping.lies_iff hcr).mpr hxc))
  obtain ⟨lost, hlost, hc⟩ := he.pflags
  obtain ⟨lost', hlost', hc'⟩ := he.given
  have hpf := hc.all fun a ha => htaken a (hlost a ha).1 (.inl (hlost a ha).2)
  have hfl := hc'.all fun a ha => htaken a (hlost' a ha).1 (hlost' a ha).2
  refine ⟨rq', flags, _, stack', b, hok, ⟨he.listed, hord', ?_, ?_, fun c hc i => ?_⟩, by simp,
    hnew, flag_ext fun i => (hfl i).trans (hpf i).symm⟩
  · exact List.forall_mem_cons.mpr ⟨hse, h.le⟩
  · refine List.forall_mem_cons.mpr ⟨⟨b, by simp, hnew⟩, fun x hx => ?_⟩
    obtain ⟨c, hc, hxc⟩ := h.within x hx
    rcases hmem hc with hct | hcr
    · exact ⟨b, by simp, hin hct hxc⟩
    · exact ⟨c, hsub hcr, (he.keeping.lies_iff hcr).mpr hxc⟩
  · rcases hmem' hc with rfl | hcr
    · exact (hpf i).trans (hcover i)
    · have hnot : ¬ rq'.Lies c ⟨s, e, f⟩ := fun hx => hother hcr hse hx hnew
      rw [(he.keeping c hcr).2.2, h.pflags c (hold hcr), List.exists_mem_cons_iff]
      simp only [hnot, false_and, false_or, he.keeping.lies_iff hcr]

/-- A range that is ignored lies in a block with the same flags. -/
theorem add_ignored (hse : s ≤ e) (hs : rq.Spares s e f) (hi : rq.Ignored as s e)
    (rqflags : RqFlag) :
    ∃ rq' b, rq.add s e f rqflags = .ok (rq', f) ∧ rq'.Tracks (⟨s, e, f⟩ :: l) as stack ∧ b ∈ as ∧
      rq'.Lies b ⟨s, e, f⟩ ∧ f = rq'.pflags b := by
  obtain ⟨-, -, hsame⟩ := hs
  rw [h.listed.blocks_eq] at hsame
  obtain ⟨b, hbt, hbf⟩ := hsame hi
  obtain ⟨hb, hsb, hbs⟩ := mem_touching.mp hbt
  obtain ⟨a, hok⟩ := h.listed.add_ignored h.ordered hi f rqflags
  obtain rfl := hi.empty
  have hnew : rq.Lies b ⟨s, s, f⟩ := ⟨hbs, hsb⟩
  refine ⟨rq.advance a, b, hok, ⟨h.listed.congr rfl rfl rfl rfl, h.ordered, ?_, ?_,
    fun c hc i => ?_⟩, hb, hnew, hbf.symm⟩
  · exact List.forall_mem_cons.mpr ⟨hse, h.le⟩
  · exact List.forall_mem_cons.mpr ⟨⟨b, hb, hnew⟩, h.within⟩
  · change Has (rq.pflags c) i ↔ ∃ x ∈ _, rq.Lies c x ∧ _
    rw [List.exists_mem_cons_iff, ← h.pflags c hc i]
    refine ⟨.inr, fun hi => hi.elim (fun ⟨hxc, hi⟩ => ?_) id⟩
    obtain rfl := lies_unique h.ordered hse hc hb hxc hnew
    rwa [hbf]

/-- Clearing leaves the blocks with the flags of what is left of the segments. -/
theorem clearto (hs : rq.SparesCut l seq) :
    ∃ rq' flags as' stack', rq.clearto seq = .ok (rq', flags) ∧
      rq'.Tracks (cutTo l seq) as' stack' := by
  rw [SparesCut, h.listed.blocks_eq] at hs
  obtain ⟨rq', flags, hok, hc⟩ := h.listed.clearto h.ordered seq
  refine ⟨rq', flags, _, _, hok, hc.listed, hc.ordered h.ordered, fun x hx => ?_, fun x hx => ?_,
    fun b hb i => ?_⟩
  · obtain ⟨y, hy, hyq, rfl⟩ := mem_cutTo.mp hx
    exact max_le (h.le y hy) hyq.le
  · obtain ⟨y, hy, hyq, rfl⟩ := mem_cutTo.mp hx
    obtain ⟨b, hb, hyb⟩ := h.within y hy
    have hbq : seq < rq.endseq b := hyq.trans_le hyb.2
    refine ⟨b, List.mem_filter.mpr ⟨hb, decide_eq_true hbq⟩, ?_, ?_⟩
    · rw [hc.startseq b hb hbq]
      exact max_le_max_right seq hyb.1
    · rw [hc.endseq]
      exact hyb.2
  · obtain ⟨hb, hbq⟩ := List.mem_filter.mp hb
    have hbq := of_decide_eq_true hbq
    have hcut := hs b hb hbq
    rw [hc.pflags, h.pflags b hb i]
    constructor
    · rintro ⟨x, hx, hxb, hi⟩
      obtain ⟨y, hy, hyb, hyq, hi⟩ : ∃ y ∈ l, rq.Lies b y ∧ seq < y.hi ∧ Has y.flags i := by
        rcases lt_or_ge seq x.hi with hlt | hge
        · exact ⟨x, hx, hxb, hlt, hi⟩
        · have hmore := hcut.has (has_flagsIn.mpr ⟨x, by simpa using ⟨hx, hge⟩, hxb, hi⟩)
          obtain ⟨y, hy, hyb, hi⟩ := has_flagsIn.mp hmore
          obtain ⟨hy, hyq⟩ := List.mem_filter.mp hy
          exact ⟨y, hy, hyb, of_decide_eq_true hyq, hi⟩
      refine ⟨_, mem_cutTo.mpr ⟨y, hy, hyq, rfl⟩, ⟨?_, ?_⟩, hi⟩
      · rw [hc.startseq b hb hbq]
        exact max_le_max_right seq hyb.1
      · rw [hc.endseq]
        exact hyb.2
    · rintro ⟨x, hx, hxb, hi⟩
      obtain ⟨y, hy, hyq, rfl⟩ := mem_cutTo.mp hx
      obtain ⟨c, hcas, hyc⟩ := h.within y hy
      have hcq : seq < rq.endseq c := hyq.trans_le hyc.2
      have hxc : rq'.Lies c { y with lo := max y.lo seq } := by
        refine ⟨?_, ?_⟩
        · rw [hc.startseq c hcas hcq]
          exact max_le_max_right seq hyc.1
        · rw [hc.endseq]
          exact hyc.2
      obtain rfl := lies_unique (hc.ordered h.ordered) (max_le (h.le y hy) hyq.le)
        (List.mem_filter.mpr ⟨hb, decide_eq_true hbq⟩)
        (List.mem_filter.mpr ⟨hcas, decide_eq_true hcq⟩) hxb hxc
      exact ⟨y, hy, hyc, hi⟩

end Tracks

theorem Threaded.listed_nil (h : rq.Threaded []) : rq.Listed [] [] := by
  obtain ⟨stack, hs, hp⟩ := h.stacked
  obtain rfl := hp.eq_nil
  exact ⟨h.linked, hs, hp⟩

theorem Threaded.tracks_nil (h : rq.Threaded []) : rq.Tracks [] [] [] :=
  ⟨h.listed_nil, ⟨by simp, .nil⟩, by simp, by simp, by simp⟩

end ReassemblyQueue

namespace RqCall

/-- What a call leaves of the segments. -/
def arrive (rq : ReassemblyQueue) (l : List Added) : RqCall → List Added
  | .add sseq eseq tiflags _ => ⟨sseq, eseq, tiflags⟩ :: l
  | .clearto seq => cutTo l seq
  | .cleartonxt => cutTo l rq.rcvNxt
  | .clear | .init _ => []

/-- The call loses no flags. -/
def SparesFlags (rq : ReassemblyQueue) (l : List Added) : RqCall → Prop
  | .add sseq eseq tiflags _ => rq.Spares sseq eseq tiflags
  | .clearto seq => rq.SparesCut l seq
  | .cleartonxt => rq.SparesCut l rq.rcvNxt
  | .clear | .init _ => True

instance (rq : ReassemblyQueue) (l : List Added) : DecidablePred (SparesFlags rq l)
  | .add sseq eseq tiflags _ => inferInstanceAs (Decidable (rq.Spares sseq eseq tiflags))
  | .clearto seq => inferInstanceAs (Decidable (rq.SparesCut l seq))
  | .cleartonxt => inferInstanceAs (Decidable (rq.SparesCut l rq.rcvNxt))
  | .clear | .init _ => inferInstanceAs (Decidable True)

end RqCall

/-- The reassembly queue beside the segments that have been added to it. -/
def arrivals (rcvnxt : TcpSeq) : Machine (ReassemblyQueue × List Added) RqCall RqError :=
  (segments rcvnxt).withHistory [] fun rq c _ l => c.arrive rq l

/-- The runs in which no call loses any flags. -/
def sparing (rcvnxt : TcpSeq) : Machine (ReassemblyQueue × List Added) RqCall RqError :=
  (arrivals rcvnxt).restrict fun p c => c.SparesFlags p.1 p.2

instance (p : ReassemblyQueue × List Added) (c : RqCall) :
    Decidable ((arrivals rcvnxt).Enabled p c) :=
  inferInstanceAs (Decidable c.Proper)

instance (p : ReassemblyQueue × List Added) (c : RqCall) :
    Decidable ((sparing rcvnxt).Enabled p c) :=
  inferInstanceAs (Decidable (c.Proper ∧ c.SparesFlags p.1 p.2))

namespace ReassemblyQueue

variable {rq rq' : ReassemblyQueue} {as stack : List ℕ} {c : RqCall}

theorem Tracks.clear (h : rq.Tracks l as stack) :
    ∃ rq', rq.clear = .ok rq' ∧ rq'.Tracks [] [] [] := by
  obtain ⟨rq', hok, hh, -⟩ := h.listed.threaded.clear
  exact ⟨rq', hok, hh.threaded.tracks_nil⟩

/-- Every call that loses no flags succeeds and keeps track of the segments. -/
theorem Tracks.step (h : rq.Tracks l as stack) (hc : c.Proper) (hs : c.SparesFlags rq l) :
    ∃ rq' as' stack', c.step rq = .ok rq' ∧ rq'.Tracks (c.arrive rq l) as' stack' := by
  cases c with
  | add sseq eseq tiflags rqflags =>
    by_cases hi : rq.Ignored as sseq eseq
    · obtain ⟨rq', b, hok, h', -⟩ := h.add_ignored hc hs hi rqflags
      exact ⟨rq', as, stack, by rw [RqCall.step, hok]; rfl, h'⟩
    · obtain ⟨rq', flags, as', stack', b, hok, h', -⟩ := h.add hc hs hi rqflags
      exact ⟨rq', as', stack', by rw [RqCall.step, hok]; rfl, h'⟩
  | clearto seq =>
    obtain ⟨rq', flags, as', stack', hok, h'⟩ := h.clearto hs
    exact ⟨rq', as', stack', by rw [RqCall.step, hok]; rfl, h'⟩
  | cleartonxt =>
    obtain ⟨rq', flags, as', stack', hok, h'⟩ := h.clearto hs
    exact ⟨rq', as', stack', by rw [RqCall.step, cleartonxt, hok]; rfl, h'⟩
  | clear =>
    obtain ⟨rq', hok, h'⟩ := h.clear
    exact ⟨rq', [], [], hok, h'⟩
  | init rcvnxt =>
    have hl : ({ rq with rcvNxt := rcvnxt }).Listed as stack := h.listed.congr rfl rfl rfl rfl
    obtain ⟨rq', hok, hh, -⟩ := hl.threaded.clear
    exact ⟨rq', [], [], hok, hh.threaded.tracks_nil⟩

end ReassemblyQueue

open ReassemblyQueue

theorem sparing_invariant :
    (sparing rcvnxt).Invariant fun p => ∃ as stack, p.1.Tracks p.2 as stack where
  init p hi := by
    obtain ⟨hf, hg⟩ := hi
    rw [hg]
    exact ⟨[], [], hf.holds.threaded.tracks_nil⟩
  step p c p' h he hs := by
    obtain ⟨as, stack, h⟩ := h
    have hs : (arrivals rcvnxt).step p c = .ok p' := hs
    obtain ⟨hs, hg⟩ := (Machine.withHistory_step_iff _).mp hs
    obtain ⟨rq', as', stack', hok, h'⟩ := h.step he.1 he.2
    obtain rfl : rq' = p'.1 := Except.ok.inj (hok.symm.trans hs)
    rw [hg]
    exact ⟨as', stack', h'⟩

end Ns2XPass
