import Ns2XPass.Reassembly.Adding
import Ns2XPass.Reassembly.Joining

/-! # The effect of adding

A new range and the blocks that it touches become one block. This is a new one,
which is on top of the LIFO, or one of those blocks, which keeps its place
there. The block bears the flags of the others, unless one of them is eclipsed
by a block on the other side of the new range, and they are returned, unless
nothing is left to insert.
-/

namespace Ns2XPass

/-- The flag of a bit. -/
def Has (f : TcpFlag) (i : ℕ) : Prop := f.getLsbD i = true

@[simp] theorem has_or {f g : TcpFlag} {i : ℕ} : Has (f ||| g) i ↔ Has f i ∨ Has g i := by
  simp [Has]

namespace ReassemblyQueue

variable {rq rq' rq₁ : ReassemblyQueue} {as pre mids post stack : List ℕ} {a b c p q n : ℕ}
  {s e lo hi : TcpSeq} {f g flags : TcpFlag} {rqflags : RqFlag} {initcnt : ℤ}

/-- The blocks that end before the new range. -/
def before (rq : ReassemblyQueue) (as : List ℕ) (s : TcpSeq) : List ℕ :=
  as.filter fun x => rq.endseq x < s

/-- The blocks that touch the new range. -/
def touching (rq : ReassemblyQueue) (as : List ℕ) (s e : TcpSeq) : List ℕ :=
  as.filter fun x => s ≤ rq.endseq x ∧ rq.startseq x ≤ e

/-- The blocks that begin behind the new range. -/
def behind (rq : ReassemblyQueue) (as : List ℕ) (e : TcpSeq) : List ℕ :=
  as.filter fun x => e < rq.startseq x

theorem mem_touching : a ∈ rq.touching as s e ↔ a ∈ as ∧ s ≤ rq.endseq a ∧ rq.startseq a ≤ e := by
  simp [touching]

/-- The flags of a range and of some blocks, but for one that is lost. -/
def Collects (rq : ReassemblyQueue) (mids : List ℕ) (f : TcpFlag) (lost : Option ℕ)
    (x : TcpFlag) : Prop :=
  ∀ i, Has x i ↔ Has f i ∨ ∃ a ∈ mids, a ∉ lost ∧ Has (rq.pflags a) i

/-- The bounds of a range and of some blocks together. -/
structure Hull (rq : ReassemblyQueue) (mids : List ℕ) (s e lo hi : TcpSeq) : Prop where
  lo_le : lo ≤ s
  lo_le_of_mem : ∀ a ∈ mids, lo ≤ rq.startseq a
  lo_eq : lo = s ∨ ∃ a ∈ mids, lo = rq.startseq a
  le_hi : e ≤ hi
  le_hi_of_mem : ∀ a ∈ mids, rq.endseq a ≤ hi
  hi_eq : hi = e ∨ ∃ a ∈ mids, hi = rq.endseq a

/-- The block reaches the new range from the right, and another one reaches it from the left. -/
structure Eclipsed (rq : ReassemblyQueue) (as : List ℕ) (s e : TcpSeq) (a : ℕ) : Prop where
  right : s < rq.startseq a ∧ rq.startseq a ≤ e
  beyond : e < rq.endseq a ∨ rq.startseq a = e
  left : ∃ p ∈ as, rq.startseq p < s ∧ s ≤ rq.endseq p

instance : Decidable (rq.Eclipsed as s e a) :=
  decidable_of_iff ((s < rq.startseq a ∧ rq.startseq a ≤ e) ∧
      (e < rq.endseq a ∨ rq.startseq a = e) ∧ ∃ p ∈ as, rq.startseq p < s ∧ s ≤ rq.endseq p)
    ⟨fun h => ⟨h.1, h.2.1, h.2.2⟩, fun h => ⟨h.1, h.2, h.3⟩⟩

/-- The block takes in all that is added, which is neither behind all blocks nor before them: it
contains the new range, or it overlaps it and is the last one, or the first one, of those that
are not within the new range. -/
structure Unreported (rq : ReassemblyQueue) (as : List ℕ) (s e : TcpSeq) (a : ℕ) : Prop where
  before : ∃ x ∈ as, s < rq.endseq x
  behind : ∃ x ∈ as, rq.startseq x < e
  other : ¬ (rq.startseq a = s ∧ rq.endseq a = e)
  takes : rq.startseq a ≤ s ∧ e ≤ rq.endseq a ∨
    rq.startseq a < s ∧ s < rq.endseq a ∧ (∀ x ∈ as, rq.startseq x < e ∧ rq.endseq x ≤ e) ∨
    s < rq.startseq a ∧ rq.startseq a < e ∧ e < rq.endseq a ∧ ∀ x ∈ as, s ≤ rq.startseq x

instance : Decidable (rq.Unreported as s e a) :=
  decidable_of_iff ((∃ x ∈ as, s < rq.endseq x) ∧ (∃ x ∈ as, rq.startseq x < e) ∧
      ¬ (rq.startseq a = s ∧ rq.endseq a = e) ∧ (rq.startseq a ≤ s ∧ e ≤ rq.endseq a ∨
        rq.startseq a < s ∧ s < rq.endseq a ∧ (∀ x ∈ as, rq.startseq x < e ∧ rq.endseq x ≤ e) ∨
        s < rq.startseq a ∧ rq.startseq a < e ∧ e < rq.endseq a ∧ ∀ x ∈ as, s ≤ rq.startseq x))
    ⟨fun h => ⟨h.1, h.2.1, h.2.2.1, h.2.2.2⟩, fun h => ⟨h.1, h.2, h.3, h.4⟩⟩

/-- The block is not deleted when the range is added, and becomes the one that contains it. -/
def Survives (rq : ReassemblyQueue) (as : List ℕ) (s e : TcpSeq) (a : ℕ) : Prop :=
  rq.startseq a < s ∧ s ≤ rq.endseq a ∨ rq.startseq a = s ∧ e ≤ rq.endseq a ∨
    rq.startseq a = s ∧ s ≤ rq.endseq a ∧ (∀ x ∈ as, rq.endseq x ≤ s) ∨
    s < rq.startseq a ∧ rq.startseq a ≤ e ∧ (e < rq.endseq a ∨ rq.startseq a = e) ∧
      ∀ x ∈ as, ¬ (rq.startseq x < s ∧ s ≤ rq.endseq x)

instance : Decidable (rq.Survives as s e a) := inferInstanceAs (Decidable (_ ∨ _ ∨ _ ∨ _))

/-- What is left of the LIFO. -/
inductive Restacked (rq : ReassemblyQueue) (as stack : List ℕ) (s e : TcpSeq) (b : ℕ) :
    List ℕ → Prop
  | fresh : Restacked rq as stack s e b (b :: stack.filter fun x => x ∉ rq.touching as s e)
  | survivor : b ∈ as → rq.Survives as s e b →
      Restacked rq as stack s e b (stack.filter fun x => x = b ∨ x ∉ rq.touching as s e)

/-- The blocks that the new range touches and the range become the block `b`. -/
structure Effect (rq : ReassemblyQueue) (as stack : List ℕ) (s e : TcpSeq) (f : TcpFlag)
    (rq' : ReassemblyQueue) (flags : TcpFlag) (b : ℕ) (stack' : List ℕ) : Prop where
  listed : rq'.Listed (rq.before as s ++ b :: rq.behind as e) stack'
  keeping : rq.Keeping rq' (rq.before as s ++ rq.behind as e)
  hull : Hull rq (rq.touching as s e) s e (rq'.startseq b) (rq'.endseq b)
  restacked : Restacked rq as stack s e b stack'
  pflags : ∃ lost, (∀ a ∈ lost, a ∈ as ∧ rq.Eclipsed as s e a) ∧
    Collects rq (rq.touching as s e) f lost (rq'.pflags b)
  given : ∃ lost, (∀ a ∈ lost, a ∈ as ∧ (rq.Eclipsed as s e a ∨ rq.Unreported as s e a)) ∧
    Collects rq (rq.touching as s e) f lost flags

/-- The call has the effect that is described. -/
def Affects (rq : ReassemblyQueue) (as stack : List ℕ) (s e : TcpSeq) (f : TcpFlag)
    (result : Except RqError (ReassemblyQueue × TcpFlag)) : Prop :=
  Yields result fun rq' flags => ∃ b stack', Effect rq as stack s e f rq' flags b stack'

/-- The blocks are split where the new range is. -/
theorem split_eq (hord : Ordered rq.startseq rq.endseq (pre ++ mids ++ post)) (hse : s ≤ e)
    (hpre : ∀ x ∈ pre, rq.endseq x < s)
    (hmids : ∀ x ∈ mids, s ≤ rq.endseq x ∧ rq.startseq x ≤ e)
    (hpost : ∀ x ∈ post, e < rq.startseq x) :
    rq.before (pre ++ mids ++ post) s = pre ∧ rq.touching (pre ++ mids ++ post) s e = mids ∧
      rq.behind (pre ++ mids ++ post) e = post := by
  have hp : ∀ x ∈ pre, rq.startseq x < s := fun x hx =>
    (hord.le x (by simp [hx])).trans_lt (hpre x hx)
  have hq : ∀ x ∈ post, e < rq.endseq x := fun x hx =>
    (hpost x hx).trans_le (hord.le x (by simp [hx]))
  refine ⟨?_, ?_, ?_⟩
  · rw [before, List.filter_append, List.filter_append,
      List.filter_eq_self.mpr fun x hx => by simpa using hpre x hx,
      List.filter_eq_nil_iff.mpr fun x hx => by simpa using (hmids x hx).1,
      List.filter_eq_nil_iff.mpr fun x hx => by simpa using hse.trans (hq x hx).le]
    simp
  · rw [touching, List.filter_append, List.filter_append,
      List.filter_eq_nil_iff.mpr fun x hx => by simpa using fun h => absurd (hpre x hx) h.not_gt,
      List.filter_eq_self.mpr fun x hx => by simpa using hmids x hx,
      List.filter_eq_nil_iff.mpr fun x hx => by simpa using fun _ => hpost x hx]
    simp
  · rw [behind, List.filter_append, List.filter_append,
      List.filter_eq_nil_iff.mpr fun x hx => by simpa using (hp x hx).le.trans hse,
      List.filter_eq_nil_iff.mpr fun x hx => by simpa using (hmids x hx).2,
      List.filter_eq_self.mpr fun x hx => by simpa using hpost x hx]
    simp

theorem Hull.single (p : ℕ) :
    Hull rq [p] s e (min s (rq.startseq p)) (max e (rq.endseq p)) where
  lo_le := min_le_left ..
  lo_le_of_mem := by simp
  lo_eq := by simpa using min_choice s (rq.startseq p)
  le_hi := le_max_left ..
  le_hi_of_mem := by simp
  hi_eq := by simpa using max_choice e (rq.endseq p)

section Builders

variable (hpre : ∀ x ∈ pre, rq.endseq x < s) (hpost : ∀ x ∈ post, e < rq.startseq x)
  (hse : s ≤ e)
include hpre hpost hse

/-- A block that is added does not touch any other one. -/
theorem Placed.fresh (h : Placed rq rq' pre post (n :: stack) n s e f)
    (hord : Ordered rq.startseq rq.endseq (pre ++ post)) :
    Effect rq (pre ++ post) stack s e f rq' f n (n :: stack) := by
  have hc : Collects rq [] f none f := fun i => by simp
  have hlist : pre ++ post = pre ++ [] ++ post := by simp
  rw [hlist] at hord ⊢
  obtain ⟨hb, ht, hh⟩ := split_eq hord hse hpre (by simp) hpost
  have hr : Restacked rq (pre ++ [] ++ post) stack s e n
      (n :: stack.filter fun x => x ∉ rq.touching (pre ++ [] ++ post) s e) := .fresh
  refine ⟨?_, ?_, ?_, ?_, ⟨none, by simp, ?_⟩, ⟨none, by simp, ?_⟩⟩
  · rw [hb, hh]; exact h.listed
  · rw [hb, hh]; exact h.keeping
  · rw [ht, h.startseq, h.endseq]
    exact ⟨le_rfl, by simp, .inl rfl, le_rfl, by simp, .inl rfl⟩
  · rw [ht] at hr
    simpa using hr
  · rw [ht, h.pflags]; exact hc
  · rw [ht]; exact hc

/-- The only block that the new range touches is extended. -/
theorem Placed.extend (h : Placed rq rq' pre post stack p lo hi g)
    (hord : Ordered rq.startseq rq.endseq (pre ++ p :: post)) (hp : s ≤ rq.endseq p)
    (hp' : rq.startseq p ≤ e) (hlo : lo = min s (rq.startseq p)) (hhi : hi = max e (rq.endseq p))
    (hs : rq.Survives (pre ++ p :: post) s e p)
    (hg : ∀ i, Has g i ↔ Has f i ∨ Has (rq.pflags p) i)
    (hflags : flags = g ∨ flags = f ∧ rq.Unreported (pre ++ p :: post) s e p) :
    Effect rq (pre ++ p :: post) stack s e f rq' flags p stack := by
  have hc : Collects rq [p] f none g := fun i => by simp [hg]
  have hlist : pre ++ p :: post = pre ++ [p] ++ post := by simp
  have hmem : p ∈ pre ++ p :: post := by simp
  rw [hlist] at hord hs hflags hmem ⊢
  obtain ⟨hb, ht, hh⟩ := split_eq hord hse hpre (by simp [hp, hp']) hpost
  have hr : Restacked rq (pre ++ [p] ++ post) stack s e p
      (stack.filter fun x => x = p ∨ x ∉ rq.touching (pre ++ [p] ++ post) s e) := .survivor hmem hs
  refine ⟨?_, ?_, ?_, ?_, ⟨none, by simp, ?_⟩, ?_⟩
  · rw [hb, hh]; exact h.listed
  · rw [hb, hh]; exact h.keeping
  · rw [ht, h.startseq, h.endseq, hlo, hhi]
    exact .single p
  · have hall : ∀ x, x = p ∨ x ∉ [p] := fun x => by simpa using em (x = p)
    rw [ht] at hr
    simpa [hall] using hr
  · rw [ht, h.pflags]; exact hc
  · rw [ht]
    rcases hflags with rfl | ⟨rfl, hu⟩
    · exact ⟨none, by simp, hc⟩
    · exact ⟨some p, fun x hx => Option.some.inj hx ▸ ⟨hmem, .inr hu⟩, fun i => by simp⟩

omit hse in
/-- The new range closes the gap between two blocks, and the flags of the second one are lost. -/
theorem Placed.close (h : Placed rq rq' pre post (stack.filter fun x => x ≠ q) p
      (rq.startseq p) (rq.endseq q) g)
    (hord : Ordered rq.startseq rq.endseq (pre ++ p :: q :: post)) (hp : s ≤ rq.endseq p)
    (hp' : rq.startseq p < s) (hq : s < rq.startseq q ∧ rq.startseq q ≤ e)
    (hq' : e < rq.endseq q ∨ rq.startseq q = e)
    (hg : ∀ i, Has g i ↔ Has f i ∨ Has (rq.pflags p) i) :
    Effect rq (pre ++ p :: q :: post) stack s e f rq' g p (stack.filter fun x => x ≠ q) := by
  have hse : s ≤ e := hq.1.le.trans hq.2
  have hqe : e ≤ rq.endseq q := hq'.elim le_of_lt fun h => h ▸ hord.le q (by simp)
  have hpq : rq.endseq p < rq.startseq q :=
    (ordered_cons.mp (ordered_append.mp hord).2.1).2.1 q (by simp)
  have hne : p ≠ q := by
    rintro rfl
    exact hpq.not_ge (hord.le p (by simp))
  have hc : Collects rq [p, q] f (some q) g := fun i => by simp [hg, Ne.symm hne]
  have hlist : pre ++ p :: q :: post = pre ++ [p, q] ++ post := by simp
  have hecl : rq.Eclipsed (pre ++ [p, q] ++ post) s e q := ⟨hq, hq', p, by simp, hp', hp⟩
  rw [hlist] at hord ⊢
  obtain ⟨hb, ht, hh⟩ := split_eq hord hse hpre
    (by simpa using ⟨⟨hp, hp'.le.trans hse⟩, hse.trans hqe, hq.2⟩) hpost
  have hr : Restacked rq (pre ++ [p, q] ++ post) stack s e p
      (stack.filter fun x => x = p ∨ x ∉ rq.touching (pre ++ [p, q] ++ post) s e) :=
    .survivor (by simp) (.inl ⟨hp', hp⟩)
  have hmem : q ∈ pre ++ [p, q] ++ post := by simp
  refine ⟨?_, ?_, ?_, ?_, ⟨some q, ?_, ?_⟩, some q, ?_, ?_⟩
  · rw [hb, hh]; exact h.listed
  · rw [hb, hh]; exact h.keeping
  · rw [ht, h.startseq, h.endseq]
    refine ⟨hp'.le, ?_, .inr ⟨p, by simp, rfl⟩, hqe, ?_, .inr ⟨q, by simp, rfl⟩⟩
    · simpa using (hord.le p (by simp)).trans hpq.le
    · simpa using hpq.le.trans (hord.le q (by simp))
  · have hiff : ∀ x, (x = p ∨ x ∉ [p, q]) ↔ x ≠ q := fun x => by
      rw [List.mem_cons, List.mem_singleton, not_or]
      refine ⟨?_, fun hx => ?_⟩
      · rintro (rfl | hx)
        · exact hne
        · exact hx.2
      · exact (em (x = p)).imp_right fun hxp => ⟨hxp, hx⟩
    rw [ht] at hr
    simpa only [hiff] using hr
  · exact fun x hx => Option.some.inj hx ▸ ⟨hmem, hecl⟩
  · rw [ht, h.pflags]; exact hc
  · exact fun x hx => Option.some.inj hx ▸ ⟨hmem, .inl hecl⟩
  · rw [ht]; exact hc

end Builders

/-- A range that fits between two blocks is inserted there, and joined to those it touches. -/
theorem Listed.endfast_affects (h : rq.Listed (pre ++ post) stack)
    (hord : Ordered rq.startseq rq.endseq (pre ++ post)) (hse : s ≤ e)
    (hpre : ∀ x ∈ pre, rq.endseq x ≤ s) (hpost : ∀ y ∈ post, e ≤ rq.startseq y)
    (hlow : (∀ x ∈ pre, rq.startseq x < s) ∨ post = []) (f : TcpFlag) (rqflags : RqFlag)
    (initcnt : ℤ) (needmerge : Bool)
    (hm : needmerge = true ↔ (∃ p ∈ pre.getLast?, rq.endseq p = s) ∨
      ∃ q ∈ post.head?, rq.startseq q = e) :
    Affects rq (pre ++ post) stack s e f
      (rq.endfast s e f rqflags initcnt needmerge pre.getLast? post.head?) := by
  obtain ⟨hpsep, hqsep, hpq⟩ := ordered_append.mp hord
  by_cases hP : ∃ p ∈ pre.getLast?, rq.endseq p = s
  · obtain rfl := hm.mpr (.inl hP)
    obtain ⟨p, hp, hps⟩ := hP
    obtain ⟨pre, rfl⟩ := List.getLast?_eq_some_iff.mp hp
    have hlist : pre ++ [p] ++ post = pre ++ p :: post := by simp
    have hple := hpsep.le p (by simp)
    have hstrict : ∀ x ∈ pre, rq.endseq x < s := fun x hx =>
      ((ordered_append.mp hpsep).2.2 x hx p (by simp)).trans_le (hple.trans hps.le)
    rw [hlist] at h hord ⊢
    rw [hp]
    by_cases hQ : ∃ q ∈ post.head?, rq.startseq q = e
    · obtain ⟨q, hq, hqe⟩ := hQ
      obtain ⟨post, rfl⟩ := List.head?_eq_some_iff.mp hq
      obtain ⟨rq', flags, hok, rfl, hplaced⟩ :=
        h.endfast_both hps hqe f rqflags initcnt
      have hlt : s < rq.startseq q := hps ▸ hpq p (by simp) q (by simp)
      refine ⟨rq', _, hok, p, _, hplaced.close hstrict ?_ hord hps.ge ?_ ⟨hlt, hqe.le⟩ (.inr hqe)
        fun i => by rw [has_or, or_comm]⟩
      · exact fun x hx => hqe ▸ (hqsep.le q (by simp)).trans_lt ((ordered_cons.mp hqsep).2.1 x hx)
      · exact hlow.resolve_right (List.cons_ne_nil q post) p (by simp)
    · have hne : ∀ q ∈ post.head?, rq.startseq q ≠ e := fun q hq he => hQ ⟨q, hq, he⟩
      obtain ⟨rq', flags, hok, rfl, hplaced⟩ :=
        h.endfast_left hps f rqflags initcnt hne
      refine ⟨rq', _, hok, p, _, hplaced.extend hstrict (hqsep.lt_lo_of_head? hpost hne) hse hord
        hps.ge ((hple.trans hps.le).trans hse) (min_eq_right (hple.trans hps.le)).symm
        (max_eq_left (hps.le.trans hse)).symm ?_ (fun i => by rw [has_or, or_comm]) (.inl rfl)⟩
      rcases hlow with hlow | rfl
      · exact .inl ⟨hlow p (by simp), hps.ge⟩
      · rcases (hple.trans hps.le).lt_or_eq with hlt | heq
        · exact .inl ⟨hlt, hps.ge⟩
        · exact .inr (.inr (.inl ⟨heq, hps.ge, by simpa using hpre⟩))
  · have hpre' := hpsep.hi_lt_of_getLast? hpre fun p hp he => hP ⟨p, hp, he⟩
    by_cases hQ : ∃ q ∈ post.head?, rq.startseq q = e
    · obtain rfl := hm.mpr (.inr hQ)
      obtain ⟨q, hq, hqe⟩ := hQ
      obtain ⟨post, rfl⟩ := List.head?_eq_some_iff.mp hq
      have hqle := hqsep.le q (by simp)
      have hne : ∀ p ∈ pre.getLast?, rq.endseq p ≠ s := fun p hp he => hP ⟨p, hp, he⟩
      obtain ⟨rq', flags, hok, rfl, hplaced⟩ :=
        h.endfast_right hqe f rqflags initcnt hne
      refine ⟨rq', _, hok, q, _, hplaced.extend hpre' ?_ hse hord (hse.trans (hqe.ge.trans hqle))
        hqe.le (min_eq_left (hse.trans hqe.ge)).symm (max_eq_right (hqe.ge.trans hqle)).symm ?_
        (fun i => by rw [has_or, or_comm]) (.inl rfl)⟩
      · exact fun x hx => hqe ▸ hqle.trans_lt ((ordered_cons.mp hqsep).2.1 x hx)
      · rcases hse.lt_or_eq with hlt | rfl
        · refine .inr (.inr (.inr ⟨hqe ▸ hlt, hqe.le, .inr hqe, fun x hx ⟨hxs, hsx⟩ => ?_⟩))
          rcases List.mem_append.mp hx with hx | hx
          · exact (hpre' x hx).not_ge hsx
          · exact (hse.trans (hpost x hx)).not_gt hxs
        · exact .inr (.inl ⟨hqe, hqe.ge.trans hqle⟩)
    · have hpost' := hqsep.lt_lo_of_head? hpost fun q hq he => hQ ⟨q, hq, he⟩
      obtain rfl : needmerge = false := by
        rw [← Bool.not_eq_true, hm]
        exact not_or.mpr ⟨hP, hQ⟩
      obtain ⟨rq', flags, hok, rfl, n, -, hplaced⟩ :=
        h.endfast_fresh s e f rqflags initcnt
      exact ⟨rq', _, hok, n, _, hplaced.fresh hpre' hpost' hse hord⟩

end ReassemblyQueue

end Ns2XPass
