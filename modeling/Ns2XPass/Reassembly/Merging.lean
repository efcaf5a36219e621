import Ns2XPass.Reassembly.Effect

/-! # The effect of merging

A range that no block lies in is merged with the blocks that it overlaps, on the
left and on the right, and what is left of it is inserted between them.
-/

namespace Ns2XPass

namespace ReassemblyQueue

variable {rq rq' rq₁ : ReassemblyQueue} {as pre mids post stack : List ℕ} {a b : ℕ}
  {s e lo hi : TcpSeq} {f g flags : TcpFlag} {rqflags : RqFlag} {initcnt : ℤ}

section Merge

theorem Keeping.trans (h : rq.Keeping rq₁ as) (h' : rq₁.Keeping rq' as) : rq.Keeping rq' as :=
  fun x hx => by
    obtain ⟨hs, he, hp⟩ := h x hx
    obtain ⟨hs', he', hp'⟩ := h' x hx
    exact ⟨hs'.trans hs, he'.trans he, hp'.trans hp⟩

theorem Placed.trans (h : Placed rq₁ rq' pre post stack b lo hi g)
    (hk : rq.Keeping rq₁ (pre ++ post)) : Placed rq rq' pre post stack b lo hi g :=
  ⟨h.listed, hk.trans h.keeping, h.startseq, h.endseq, h.pflags⟩

theorem Keeping.mergeLeft (hb : b ∉ as) : rq.Keeping (rq.mergeLeft s f b) as := fun x hx => by
  have hne : x ≠ b := ne_of_mem_of_not_mem hx hb
  exact ⟨Function.update_of_ne hne .., rfl, Function.update_of_ne hne ..⟩

theorem Keeping.mergeRight (hb : b ∉ as) : rq.Keeping (rq.mergeRight e f b) as := fun x hx => by
  have hne : x ≠ b := ne_of_mem_of_not_mem hx hb
  exact ⟨rfl, Function.update_of_ne hne .., Function.update_of_ne hne ..⟩

/-- Nothing is left to insert. -/
theorem Listed.fill_nil (h : rq₁.Listed (pre ++ b :: post) stack)
    (hk : rq.Keeping rq₁ (pre ++ post)) {s' e' : TcpSeq} (hes : e' ≤ s') (f : TcpFlag)
    (rqflags : RqFlag) (initcnt : ℤ) (needmerge : Bool) (p q : Option ℕ) :
    Yields (rq₁.fill s' e' f rqflags initcnt needmerge p q) fun rq' flags =>
      flags = f ∧ Placed rq rq' pre post stack b (rq₁.startseq b) (rq₁.endseq b)
        (rq₁.pflags b) := by
  obtain ⟨hd, as, hcons⟩ := List.exists_cons_of_ne_nil (List.append_ne_nil_of_right_ne_nil pre
    (List.cons_ne_nil b post))
  have hhead : rq₁.fifo.head = some hd := by
    rw [h.threaded.spells.head_eq, hcons, List.head?_cons]
  rw [Yields, fill, if_pos hes, hhead]
  exact ⟨_, _, rfl, rfl, h.congr rfl rfl rfl rfl, fun x hx => hk x hx, rfl, rfl, rfl⟩

variable (hpre : ∀ x ∈ pre, rq.endseq x ≤ s ∧ rq.startseq x < s)
  (hpost : ∀ y ∈ post, e ≤ rq.startseq y)
include hpre hpost

/-- The new range lies between two blocks. -/
theorem Listed.merge_nil (h : rq.Listed (pre ++ post) stack)
    (hord : Ordered rq.startseq rq.endseq (pre ++ post)) (hse : s < e) (hp : pre ≠ [])
    (hq : post ≠ []) :
    Affects rq (pre ++ post) stack s e f
      (rq.merge s e f rqflags initcnt pre.getLast? post.head?) := by
  rcases List.eq_nil_or_concat pre with rfl | ⟨pre, p, rfl⟩
  · exact absurd rfl hp
  obtain ⟨q, post, rfl⟩ := List.exists_cons_of_ne_nil hq
  rw [List.concat_eq_append] at *
  obtain ⟨hps, -⟩ := hpre p (by simp)
  have hqe := hpost q (by simp)
  have hspells := h.threaded.spells
  have hleft := leftBlock_eq s hspells
  have hlist : pre ++ [p] ++ q :: post = pre ++ p :: q :: post := by simp
  have hright := rightBlock_eq e (hlist ▸ hspells)
  rw [if_neg (by simpa using (hse.trans_le hqe).le)] at hleft
  rw [if_neg (by simpa using hps.trans hse.le)] at hright
  have hadj : rq.adjacent s e (some p) (some q) =
      .ok (decide (e ≤ rq.startseq q ∧ (rq.endseq p = s ∨ rq.startseq q = e))) :=
    if_pos ⟨(hlist ▸ hspells).next_eq, hps⟩
  have hm : decide (e ≤ rq.startseq q ∧ (rq.endseq p = s ∨ rq.startseq q = e)) = true ↔
      (∃ p' ∈ (pre ++ [p]).getLast?, rq.endseq p' = s) ∨
        ∃ q' ∈ (q :: post).head?, rq.startseq q' = e := by
    simp [hqe]
  have haff := h.endfast_affects hord hse.le (fun x hx => (hpre x hx).1) hpost
    (.inl fun x hx => (hpre x hx).2) f rqflags initcnt _ hm
  rw [merge_of_none hleft, mergeFrom_of_none hright, fill, if_neg hse.not_ge, List.getLast?_concat,
    List.head?_cons]
  change Affects _ _ _ _ _ _ (rq.adjacent s e (some p) (some q) >>= _)
  rw [hadj]
  rw [List.getLast?_concat, List.head?_cons] at haff
  exact haff

section Within

variable (hord : Ordered rq.startseq rq.endseq (pre ++ b :: post))
  (hs : s < rq.endseq b) (he : rq.startseq b < e) (hout : rq.startseq b < s ∨ e < rq.endseq b)
  (hL : pre = [] ∨ rq.startseq b < s) (hR : post = [] ∨ e < rq.endseq b)
include hord hs he hout hL

omit hpre hpost in
theorem survives_within : rq.Survives (pre ++ b :: post) s e b := by
  obtain ⟨-, hsep, -⟩ := ordered_append.mp hord
  obtain ⟨hle, hgt, -⟩ := ordered_cons.mp hsep
  rcases lt_trichotomy (rq.startseq b) s with hlt | heq | hsb
  · exact .inl ⟨hlt, hs.le⟩
  · exact .inr (.inl ⟨heq, (hout.resolve_left heq.not_lt).le⟩)
  · obtain rfl := hL.resolve_right hsb.not_gt
    refine .inr (.inr (.inr ⟨hsb, he.le, .inl (hout.resolve_left hsb.not_gt), fun x hx hxs => ?_⟩))
    rcases List.mem_cons.mp hx with rfl | hx
    · exact hsb.not_gt hxs.1
    · exact (hsb.trans_le (hle.trans (hgt x hx).le)).not_gt hxs.1

include hR

omit hpre hpost in
theorem unreported_within : rq.Unreported (pre ++ b :: post) s e b := by
  obtain ⟨-, hsep, hlt⟩ := ordered_append.mp hord
  obtain ⟨hle, hgt, -⟩ := ordered_cons.mp hsep
  have hother : ¬ (rq.startseq b = s ∧ rq.endseq b = e) := fun hx =>
    hout.elim (fun h => h.ne hx.1) fun h => h.ne' hx.2
  refine ⟨⟨b, by simp, hs⟩, ⟨b, by simp, he⟩, hother, ?_⟩
  rcases le_or_gt (rq.startseq b) s with hbs | hsb
  · rcases le_or_gt e (rq.endseq b) with heb | hbe
    · exact .inl ⟨hbs, heb⟩
    · obtain rfl := hR.resolve_right hbe.not_gt
      refine .inr (.inl ⟨hout.resolve_right hbe.not_gt, hs, List.forall_mem_append.mpr
        ⟨fun x hx => ?_, by simpa using ⟨he, hbe.le⟩⟩⟩)
      have hxe := (hlt x hx b List.mem_cons_self).trans he
      exact ⟨(hord.le x (by simp [hx])).trans_lt hxe, hxe.le⟩
  · obtain rfl := hL.resolve_right hsb.not_gt
    refine .inr (.inr ⟨hsb, he, hout.resolve_left hsb.not_gt,
      List.forall_mem_cons.mpr ⟨hsb.le, ?_⟩⟩)
    exact fun x hx => hsb.le.trans (hle.trans (hgt x hx).le)

omit hpre hpost in
/-- The block takes in all of the new range. -/
theorem Listed.merge_within (h : rq.Listed (pre ++ b :: post) stack) (hse : s ≤ e) :
    Affects rq (pre ++ b :: post) stack s e f
      (rq.merge s e f rqflags initcnt pre.getLast? post.head?) := by
  obtain ⟨-, hsep, hlt⟩ := ordered_append.mp hord
  obtain ⟨hle, hgt, -⟩ := ordered_cons.mp hsep
  have hleft := leftBlock_eq s h.threaded.spells
  have hright : (rq.mergeLeft s f b).rightBlock e post.head? =
      .ok (if post = [] ∨ e < rq.endseq b then some b else none) :=
    rightBlock_eq e h.threaded.spells
  rw [if_pos hL] at hleft
  rw [if_pos hR] at hright
  rw [merge_of_some hleft, mergeFrom_of_some hright]
  have h₁ : ((rq.mergeLeft s f b).mergeRight e f b).Listed (pre ++ b :: post) stack :=
    h.congr rfl rfl rfl rfl
  have hf₁ : ((rq.mergeLeft s f b).mergeRight e f b).pflags b = rq.pflags b ||| f ||| f :=
    (Function.update_self ..).trans (congrArg (· ||| f) (Function.update_self ..))
  have hes : (rq.mergeLeft s f b).startseq b ≤ rq.endseq b :=
    (Function.update_self ..).trans_le ((min_le_right ..).trans hle)
  obtain ⟨rq', flags, hok, rfl, hplaced⟩ := h₁.fill_nil
    ((Keeping.mergeLeft h.notMem).trans (.mergeRight h.notMem)) hes f rqflags (initcnt - 1) true
    (some b) (some b)
  refine ⟨rq', _, hok, b, _, hplaced.extend (fun x hx => ?_) (fun y hy => ?_) hse hord hs.le he.le
    (Function.update_self ..) (Function.update_self ..) (survives_within hord hs he hout hL)
    (fun i => ?_) (.inr ⟨rfl, unreported_within hord hs he hout hL hR⟩)⟩
  · exact (hlt x hx b List.mem_cons_self).trans (hL.resolve_left (List.ne_nil_of_mem hx))
  · exact (hR.resolve_left (List.ne_nil_of_mem hy)).trans (hgt y hy)
  · rw [hf₁, has_or, has_or]
    tauto

end Within

omit hpre in
/-- The block takes in the left part. The rest goes up to the next block. -/
theorem Listed.merge_left (h : rq.Listed (pre ++ b :: post) stack)
    (hord : Ordered rq.startseq rq.endseq (pre ++ b :: post)) (hs : s < rq.endseq b)
    (hbs : rq.startseq b < s) (hbe : rq.endseq b ≤ e) (hR : post ≠ []) :
    Affects rq (pre ++ b :: post) stack s e f
      (rq.merge s e f rqflags initcnt pre.getLast? post.head?) := by
  obtain ⟨-, hsep, hlt⟩ := ordered_append.mp hord
  obtain ⟨hle, hgt, hqsep⟩ := ordered_cons.mp hsep
  have hse : s ≤ e := hs.le.trans hbe
  have hpre : ∀ x ∈ pre, rq.endseq x < s := fun x hx => (hlt x hx b List.mem_cons_self).trans hbs
  have hleft := leftBlock_eq s h.threaded.spells
  have hright : (rq.mergeLeft s f b).rightBlock e post.head? =
      .ok (if post = [] ∨ e < rq.endseq b then some b else none) :=
    rightBlock_eq e h.threaded.spells
  rw [if_pos (.inr hbs)] at hleft
  rw [if_neg (not_or.mpr ⟨hR, hbe.not_gt⟩)] at hright
  rw [merge_of_some hleft, mergeFrom_of_none hright]
  have h₁ : (rq.mergeLeft s f b).Listed (pre ++ b :: post) stack := h.congr rfl rfl rfl rfl
  have hk : rq.Keeping (rq.mergeLeft s f b) (pre ++ post) := .mergeLeft h.notMem
  have hs₁ : (rq.mergeLeft s f b).startseq b = min s (rq.startseq b) := Function.update_self ..
  have he₁ : (rq.mergeLeft s f b).endseq b = rq.endseq b := rfl
  have hf₁ : (rq.mergeLeft s f b).pflags b = rq.pflags b ||| f := Function.update_self ..
  have hsurv : rq.Survives (pre ++ b :: post) s e b := .inl ⟨hbs, hs.le⟩
  rcases hbe.lt_or_eq with hlt' | heq
  · rw [fill, if_neg hlt'.not_ge]
    change Affects _ _ _ _ _ _
      ((rq.mergeLeft s f b).endfast (rq.endseq b) e f rqflags (initcnt - 1) true (some b)
        post.head?)
    by_cases hQ : ∃ q ∈ post.head?, rq.startseq q = e
    · obtain ⟨q, hq, hqe⟩ := hQ
      obtain ⟨post, rfl⟩ := List.head?_eq_some_iff.mp hq
      have hqb : q ≠ b := fun hqb => h.notMem (hqb ▸ by simp)
      have hqe₁ : (rq.mergeLeft s f b).startseq q = e :=
        (Function.update_of_ne hqb ..).trans hqe
      have he₂ : (rq.mergeLeft s f b).endseq q = rq.endseq q := rfl
      obtain ⟨rq', flags, hok, hflags, hplaced⟩ := h₁.endfast_both he₁ hqe₁ f rqflags
        (initcnt - 1)
      rw [hs₁, min_eq_right hbs.le, he₂, hf₁] at hplaced
      rw [hf₁] at hflags
      subst hflags
      have hk' : rq.Keeping (rq.mergeLeft s f b) (pre ++ post) := fun x hx => hk x (by
        simp only [List.mem_append, List.mem_cons] at hx ⊢
        tauto)
      refine ⟨rq', _, hok, b, _, (hplaced.trans hk').close hpre (fun x hx => ?_) hord hs.le hbs
        ⟨hqe ▸ hs.trans hlt', hqe.le⟩ (.inr hqe) fun i => ?_⟩
      · exact hqe ▸ (hqsep.le q (by simp)).trans_lt ((ordered_cons.mp hqsep).2.1 x hx)
      · rw [has_or, has_or]
        tauto
    · have hne : ∀ q ∈ post.head?, rq.startseq q ≠ e := fun q hq he => hQ ⟨q, hq, he⟩
      have hne₁ : ∀ q ∈ post.head?, (rq.mergeLeft s f b).startseq q ≠ e := fun q hq => by
        rw [(hk q (by simp [List.mem_of_mem_head? hq])).1]
        exact hne q hq
      obtain ⟨rq', flags, hok, rfl, hplaced⟩ := h₁.endfast_left he₁ f rqflags
        (initcnt - 1) hne₁
      refine ⟨rq', _, hok, b, _, (hplaced.trans hk).extend hpre (hqsep.lt_lo_of_head? hpost hne) hse
        hord hs.le (hle.trans hbe) hs₁ (max_eq_left hbe).symm hsurv (fun i => ?_) (.inl rfl)⟩
      rw [hf₁, has_or, has_or]
      tauto
  · obtain ⟨rq', flags, hok, rfl, hplaced⟩ := h₁.fill_nil hk heq.ge f rqflags
      (initcnt - 1) true (some b) post.head?
    refine ⟨rq', _, hok, b, _, hplaced.extend hpre (fun y hy => ?_) hse hord hs.le (hle.trans hbe)
      hs₁ ((max_eq_right heq.ge).symm : rq.endseq b = max e (rq.endseq b)) hsurv (fun i => ?_)
      (.inr ⟨rfl, ⟨b, by simp, hs⟩, ⟨b, by simp, hbs.trans_le hse⟩, fun h => hbs.ne h.1,
        .inl ⟨hbs.le, heq.ge⟩⟩)⟩
    · exact heq ▸ hgt y hy
    · rw [hf₁, has_or, or_comm]

omit hpost in
/-- The block takes in the right part. The rest begins after the previous block. -/
theorem Listed.merge_right (h : rq.Listed (pre ++ b :: post) stack)
    (hord : Ordered rq.startseq rq.endseq (pre ++ b :: post)) (hbe : rq.startseq b < e)
    (hsb : s ≤ rq.startseq b) (heb : e < rq.endseq b) (hL : pre ≠ []) :
    Affects rq (pre ++ b :: post) stack s e f
      (rq.merge s e f rqflags initcnt pre.getLast? post.head?) := by
  obtain ⟨hpsep, hsep, hlt⟩ := ordered_append.mp hord
  obtain ⟨hle, hgt, -⟩ := ordered_cons.mp hsep
  have hse : s ≤ e := hsb.trans hbe.le
  have hpost : ∀ y ∈ post, e < rq.startseq y := fun y hy => heb.trans (hgt y hy)
  have hleft := leftBlock_eq s h.threaded.spells
  have hright := rightBlock_eq e h.threaded.spells
  rw [if_neg (not_or.mpr ⟨hL, hsb.not_gt⟩)] at hleft
  rw [if_pos (.inr heb)] at hright
  rw [merge_of_none hleft, mergeFrom_of_some hright]
  have h₁ : (rq.mergeRight e f b).Listed (pre ++ b :: post) stack := h.congr rfl rfl rfl rfl
  have hk : rq.Keeping (rq.mergeRight e f b) (pre ++ post) := .mergeRight h.notMem
  have hs₁ : (rq.mergeRight e f b).startseq b = rq.startseq b := rfl
  have he₁ : (rq.mergeRight e f b).endseq b = max e (rq.endseq b) := Function.update_self ..
  have hf₁ : (rq.mergeRight e f b).pflags b = rq.pflags b ||| f := Function.update_self ..
  rcases hsb.lt_or_eq with hlt' | heq
  · rw [fill, if_neg hlt'.not_ge]
    change Affects _ _ _ _ _ _
      ((rq.mergeRight e f b).endfast s (rq.startseq b) f rqflags initcnt true pre.getLast? (some b))
    by_cases hP : ∃ p ∈ pre.getLast?, rq.endseq p = s
    · obtain ⟨p, hp, hps⟩ := hP
      obtain ⟨pre, rfl⟩ := List.getLast?_eq_some_iff.mp hp
      have hlist : pre ++ [p] ++ b :: post = pre ++ p :: b :: post := by simp
      have hpb : p ≠ b := fun hpb => h.notMem (hpb ▸ by simp)
      have hps₁ : (rq.mergeRight e f b).endseq p = s := (Function.update_of_ne hpb ..).trans hps
      have hfp : (rq.mergeRight e f b).pflags p = rq.pflags p := Function.update_of_ne hpb ..
      have hk' : rq.Keeping (rq.mergeRight e f b) (pre ++ post) := fun x hx => hk x (by
        simp only [List.mem_append] at hx ⊢
        tauto)
      rw [hlist] at h₁ hord ⊢
      obtain ⟨rq', flags, hok, hflags, hplaced⟩ := h₁.endfast_both hps₁ hs₁ f rqflags
        initcnt
      have hsp : (rq.mergeRight e f b).startseq p = rq.startseq p := rfl
      rw [hsp, he₁, max_eq_right heb.le, hfp] at hplaced
      rw [hfp] at hflags
      subst hflags
      rw [hp]
      refine ⟨rq', _, hok, p, _, (hplaced.trans hk').close (fun x hx => ?_) hpost hord hps.ge
        (hpre p (by simp)).2 ⟨hlt', hbe.le⟩ (.inl heb) fun i => ?_⟩
      · exact ((ordered_append.mp hpsep).2.2 x hx p (by simp)).trans_le
          ((hpsep.le p (by simp)).trans hps.le)
      · rw [has_or, or_comm]
    · have hne : ∀ p ∈ pre.getLast?, rq.endseq p ≠ s := fun p hp he => hP ⟨p, hp, he⟩
      have hstrict := hpsep.hi_lt_of_getLast? (fun x hx => (hpre x hx).1) hne
      have hne₁ : ∀ p ∈ pre.getLast?, (rq.mergeRight e f b).endseq p ≠ s := fun p hp => by
        rw [(hk p (by simp [List.mem_of_getLast? hp])).2.1]
        exact hne p hp
      obtain ⟨rq', flags, hok, rfl, hplaced⟩ := h₁.endfast_right hs₁ f rqflags
        initcnt hne₁
      refine ⟨rq', _, hok, b, _, (hplaced.trans hk).extend hstrict hpost hse hord (hsb.trans hle)
        hbe.le (min_eq_left hsb).symm he₁ (.inr (.inr (.inr ⟨hlt', hbe.le, .inl heb, ?_⟩)))
        (fun i => ?_) (.inl rfl)⟩
      · rintro x hx ⟨hxs, hsx⟩
        rcases List.mem_append.mp hx with hx | hx
        · exact (hstrict x hx).not_ge hsx
        · rcases List.mem_cons.mp hx with rfl | hx
          · exact hsb.not_gt hxs
          · exact (hsb.trans (hle.trans (hgt x hx).le)).not_gt hxs
      · rw [hf₁, has_or, has_or]
        tauto
  · obtain ⟨rq', flags, hok, rfl, hplaced⟩ := h₁.fill_nil hk heq.ge f rqflags
      initcnt true pre.getLast? (some b)
    refine ⟨rq', _, hok, b, _, hplaced.extend (fun x hx => ?_) hpost hse hord (hsb.trans hle) hbe.le
      ((min_eq_right heq.ge).symm : rq.startseq b = min s (rq.startseq b)) he₁
      (.inr (.inl ⟨heq.symm, heb.le⟩)) (fun i => ?_) (.inr ⟨rfl, ⟨b, by simp, ?_⟩,
        ⟨b, by simp, hbe⟩, fun h => heb.ne' h.2, .inl ⟨heq.ge, heb.le⟩⟩)⟩
    · exact (hlt x hx b List.mem_cons_self).trans_le heq.ge
    · rw [hf₁, has_or, or_comm]
    · exact hsb.trans_lt (hbe.trans heb)

omit hpre hpost in
/-- Two blocks take in what they overlap, and what is left is the gap between them. -/
theorem Listed.merge_two (h : rq.Listed (pre ++ a :: b :: post) stack)
    (hord : Ordered rq.startseq rq.endseq (pre ++ a :: b :: post)) (ha : s < rq.endseq a)
    (hb : rq.startseq b < e) (has : rq.startseq a < s) (heb : e < rq.endseq b) :
    Affects rq (pre ++ a :: b :: post) stack s e f
      (rq.merge s e f rqflags initcnt pre.getLast? post.head?) := by
  obtain ⟨-, hsep, hlt⟩ := ordered_append.mp hord
  obtain ⟨hle, hab, hqsep⟩ := ordered_cons.mp hsep
  obtain ⟨hle', hgt, -⟩ := ordered_cons.mp hqsep
  have hgap : rq.endseq a < rq.startseq b := hab b List.mem_cons_self
  have hlist : pre ++ a :: b :: post = pre ++ [a] ++ b :: post := by simp
  have hspells : rq.fifo.Spells (pre ++ [a] ++ b :: post) := hlist ▸ h.threaded.spells
  have hleft := leftBlock_eq s h.threaded.spells
  have hright : (rq.mergeLeft s f a).rightBlock e post.head? =
      .ok (if post = [] ∨ e < rq.endseq b then some b else none) := rightBlock_eq e hspells
  rw [if_pos (.inr has)] at hleft
  rw [if_pos (.inr heb)] at hright
  have hba : b ≠ a := by
    rintro rfl
    exact hgap.not_ge hle
  have hnot : a ∉ pre ++ post := fun hm => h.notMem (by
    simp only [List.mem_append, List.mem_cons] at hm ⊢
    tauto)
  have hnot' : b ∉ pre ++ post := fun hm => by
    have hb := (hlist ▸ h : rq.Listed (pre ++ [a] ++ b :: post) stack).notMem
    simp only [List.mem_append] at hm hb
    tauto
  have h₂ : ((rq.mergeLeft s f a).mergeRight e f b).Listed (pre ++ a :: b :: post) stack :=
    h.congr rfl rfl rfl rfl
  have hs₁ : (rq.mergeLeft s f a).startseq b = rq.startseq b := Function.update_of_ne hba ..
  have hs₂ : ((rq.mergeLeft s f a).mergeRight e f b).startseq a = rq.startseq a :=
    (Function.update_self ..).trans (min_eq_right has.le)
  have he₂ : ((rq.mergeLeft s f a).mergeRight e f b).endseq b = rq.endseq b :=
    (Function.update_self ..).trans (max_eq_right heb.le)
  have hp₂ : ((rq.mergeLeft s f a).mergeRight e f b).endseq a = rq.endseq a :=
    Function.update_of_ne hba.symm ..
  have hf₂ : ((rq.mergeLeft s f a).mergeRight e f b).pflags a = rq.pflags a ||| f :=
    (Function.update_of_ne hba.symm ..).trans (Function.update_self ..)
  rw [merge_of_some hleft, mergeFrom_of_some hright, hs₁, fill, if_neg hgap.not_ge]
  change Affects _ _ _ _ _ _ (((rq.mergeLeft s f a).mergeRight e f b).endfast (rq.endseq a)
    (rq.startseq b) f rqflags (initcnt - 1) true (some a) (some b))
  obtain ⟨rq', flags, hok, hflags, hplaced⟩ := h₂.endfast_both hp₂ hs₁ f rqflags
    (initcnt - 1)
  rw [hs₂, he₂, hf₂] at hplaced
  rw [hf₂] at hflags
  subst hflags
  have hk : rq.Keeping ((rq.mergeLeft s f a).mergeRight e f b) (pre ++ post) :=
    (Keeping.mergeLeft hnot).trans (.mergeRight hnot')
  refine ⟨rq', _, hok, a, _, (hplaced.trans hk).close (fun x hx => ?_) (fun y hy => ?_) hord ha.le
    has ⟨ha.trans hgap, hb.le⟩ (.inl heb) fun i => ?_⟩
  · exact (hlt x hx a List.mem_cons_self).trans has
  · exact heb.trans (hgt y hy)
  · rw [has_or, has_or]
    tauto

/-- The blocks `mids` overlap the new range, and none of them lies within it. -/
theorem Listed.merge_affects (h : rq.Listed (pre ++ mids ++ post) stack)
    (hord : Ordered rq.startseq rq.endseq (pre ++ mids ++ post)) (hse : s < e)
    (hmid : ∀ a ∈ mids, s < rq.endseq a ∧ rq.startseq a < e)
    (hout : ∀ a ∈ mids, rq.startseq a < s ∨ e < rq.endseq a)
    (hnil : mids = [] → pre ≠ [] ∧ post ≠ []) :
    Affects rq (pre ++ mids ++ post) stack s e f
      (rq.merge s e f rqflags initcnt pre.getLast? post.head?) := by
  obtain ⟨hsep, -, -⟩ := ordered_append.mp hord
  obtain ⟨-, hsep, -⟩ := ordered_append.mp hsep
  rcases hsep.overhang hmid hout with rfl | ⟨b, rfl⟩ | ⟨a, b, rfl, has, heb⟩
  · rw [List.append_nil] at h hord ⊢
    exact h.merge_nil hpre hpost hord hse (hnil rfl).1 (hnil rfl).2
  · rw [List.append_assoc, List.singleton_append] at h hord ⊢
    obtain ⟨hs, he⟩ := hmid b (by simp)
    have hout := hout b (by simp)
    by_cases hL : pre = [] ∨ rq.startseq b < s
    · by_cases hR : post = [] ∨ e < rq.endseq b
      · exact h.merge_within hord hs he hout hL hR hse.le
      · rw [not_or, not_lt] at hR
        exact h.merge_left hpost hord hs (hout.resolve_right hR.2.not_gt) hR.2 hR.1
    · rw [not_or, not_lt] at hL
      exact h.merge_right hpre hord he hL.2 (hout.resolve_left hL.2.not_gt) hL.1
  · have hlist : pre ++ [a, b] ++ post = pre ++ a :: b :: post := by simp
    rw [hlist] at h hord ⊢
    exact h.merge_two hord (hmid a (by simp)).1 (hmid b (by simp)).2 has heb

end Merge

end ReassemblyQueue

end Ns2XPass
