import Mathlib.Data.Int.ConditionallyCompleteOrder
import Mathlib.Order.Interval.Set.LinearOrder
import Ns2XPass.Library.Intervals
import Ns2XPass.Reassembly.Links

/-! # Inserting a block

A reassembly queue holds separated blocks and counts their bytes. A new block
that fits between two others is joined to those it touches.
-/

namespace Ns2XPass

namespace ReassemblyQueue

variable {rq rq' : ReassemblyQueue} {as pre mids post : List ℕ} {a b n : ℕ} {sseq eseq : TcpSeq}
  {tiflags : TcpFlag}

/-- The sequence numbers that the blocks cover. -/
def covered (rq : ReassemblyQueue) (as : List ℕ) : Set TcpSeq := cover rq.startseq rq.endseq as

/-- The queue holds the blocks `as`, and `total_` is the sum of their lengths. -/
structure Holds (rq : ReassemblyQueue) (as : List ℕ) : Prop where
  threaded : rq.Threaded as
  separated : Separated rq.startseq rq.endseq as
  total : rq.total = extent rq.startseq rq.endseq as

/-- The blocks keep their bounds from one state to the next. -/
def SameBounds (rq rq' : ReassemblyQueue) (as : List ℕ) : Prop :=
  ∀ a ∈ as, rq'.startseq a = rq.startseq a ∧ rq'.endseq a = rq.endseq a

/-- The queue stores the blocks `as`, of which some may be empty. -/
structure Stores (rq : ReassemblyQueue) (as : List ℕ) : Prop where
  threaded : rq.Threaded as
  ordered : Ordered rq.startseq rq.endseq as
  total : rq.total = extent rq.startseq rq.endseq as

theorem Holds.stores (h : rq.Holds as) : rq.Stores as :=
  ⟨h.threaded, h.separated.ordered, h.total⟩

theorem Stores.holds (h : rq.Stores as) (hn : ∀ a ∈ as, rq.startseq a < rq.endseq a) :
    rq.Holds as := ⟨h.threaded, h.ordered.separated hn, h.total⟩

/-- Some blocks give way to one that covers them and `c`. -/
theorem Stores.replace {c : Set TcpSeq} (h : rq.Stores (pre ++ mids ++ post))
    (ht : rq'.Threaded (pre ++ a :: post)) (hsame : SameBounds rq rq' (pre ++ post))
    (ha : rq'.startseq a ≤ rq'.endseq a) (hpre : ∀ x ∈ pre, rq.endseq x < rq'.startseq a)
    (hpost : ∀ y ∈ post, rq'.endseq a < rq.startseq y)
    (hc : Set.Ico (rq'.startseq a) (rq'.endseq a) = rq.covered mids ∪ c)
    (htotal : rq'.total =
      rq.total - extent rq.startseq rq.endseq mids + (rq'.endseq a - rq'.startseq a)) :
    rq'.Stores (pre ++ a :: post) ∧
      rq'.covered (pre ++ a :: post) = rq.covered (pre ++ mids ++ post) ∪ c :=
  ⟨⟨ht, h.ordered.replace hsame ha hpre hpost, by
    rw [htotal, h.total, extent_replace mids hsame]⟩, cover_replace hsame hc⟩

/-- A flag at `e` comes from the new block or from one of `as`, which does not end later. -/
def Origin (rq : ReassemblyQueue) (as : List ℕ) (eseq : TcpSeq) (tiflags : TcpFlag) (i : ℕ)
    (e : TcpSeq) : Prop :=
  (tiflags.getLsbD i = true ∧ eseq ≤ e) ∨
    ∃ a ∈ as, (rq.pflags a).getLsbD i = true ∧ rq.endseq a ≤ e

theorem Origin.of_or {i : ℕ} {e : TcpSeq} (ha : a ∈ as) (hae : rq.endseq a ≤ e) (he : eseq ≤ e)
    (h : (rq.pflags a ||| tiflags).getLsbD i = true) : Origin rq as eseq tiflags i e := by
  rw [BitVec.getLsbD_or, Bool.or_eq_true] at h
  rcases h with h | h
  · exact .inr ⟨a, ha, h, hae⟩
  · exact .inl ⟨h, he⟩

/-- The flags that the blocks `bs` bear and those that are returned have their origin in the
blocks `as` or the new one, and no block is empty that was not. -/
structure Marks (rq : ReassemblyQueue) (as : List ℕ) (sseq eseq : TcpSeq) (tiflags : TcpFlag)
    (rq' : ReassemblyQueue) (flags : TcpFlag) (bs : List ℕ) : Prop where
  kept : ∀ b ∈ bs, ∀ i, (rq'.pflags b).getLsbD i = true →
    Origin rq as eseq tiflags i (rq'.endseq b)
  given : ∀ i, flags.getLsbD i = true →
    ∃ b ∈ bs, rq'.startseq b ≤ sseq ∧ Origin rq as eseq tiflags i (rq'.endseq b)
  empties : ∀ b ∈ bs, rq'.endseq b ≤ rq'.startseq b →
    b ∈ as ∧ rq.startseq b = rq'.startseq b ∧ rq.endseq b = rq'.endseq b

/-- The blocks `bs` are those of `as` and `[sseq, eseq)`, and `rcv_nxt_` has gone on with the
block that `sseq` is in. -/
structure Inserted (rq : ReassemblyQueue) (as : List ℕ) (sseq eseq : TcpSeq) (tiflags : TcpFlag)
    (rq' : ReassemblyQueue) (flags : TcpFlag) (bs : List ℕ) : Prop where
  stores : rq'.Stores bs
  covered : rq'.covered bs = rq.covered as ∪ Set.Ico sseq eseq
  next : ∃ a ∈ bs, sseq ∈ Set.Ico (rq'.startseq a) (rq'.endseq a) ∧
    rq'.rcvNxt = if rq'.startseq a ≤ rq.rcvNxt then rq'.endseq a else rq.rcvNxt
  marks : Marks rq as sseq eseq tiflags rq' flags bs

theorem Stores.inserted {lo hi r : TcpSeq} {flags : TcpFlag} (mids : List ℕ)
    (h : rq.Stores (pre ++ mids ++ post))
    (ht : rq'.Threaded (pre ++ a :: post)) (hsame : SameBounds rq rq' (pre ++ post))
    (hlo : rq'.startseq a = lo) (hhi : rq'.endseq a = hi) (hpre : ∀ x ∈ pre, rq.endseq x < lo)
    (hpost : ∀ y ∈ post, hi < rq.startseq y)
    (hc : Set.Ico lo hi = rq.covered mids ∪ Set.Ico sseq eseq)
    (htotal : rq'.total = rq.total - extent rq.startseq rq.endseq mids + (hi - lo))
    (hse : sseq < eseq) (hr : r = rq.rcvNxt)
    (hnext : rq'.rcvNxt = if rq'.startseq a ≤ r then rq'.endseq a else r)
    (hflags : ∀ x ∈ pre ++ post, rq'.pflags x = rq.pflags x) (hf : rq'.pflags a = flags)
    (horigin : ∀ i, flags.getLsbD i = true →
      Origin rq (pre ++ mids ++ post) eseq tiflags i hi) :
    Inserted rq (pre ++ mids ++ post) sseq eseq tiflags rq' flags (pre ++ a :: post) := by
  subst hlo hhi hr hf
  have hmem : sseq ∈ Set.Ico (rq'.startseq a) (rq'.endseq a) := hc ▸ .inr ⟨le_rfl, hse⟩
  have hlt := hmem.1.trans_lt hmem.2
  obtain ⟨hh, hcov⟩ := h.replace ht hsame hlt.le hpre hpost hc htotal
  have hmid : ∀ b ∈ pre ++ a :: post, b = a ∨ b ∈ pre ++ post := fun b hb =>
    List.mem_cons.mp (List.perm_middle.mem_iff.mp hb)
  have hsub : pre ++ post ⊆ pre ++ mids ++ post :=
    ((List.sublist_append_left pre mids).append_right post).subset
  refine ⟨hh, hcov, ⟨a, by simp, hmem, hnext⟩, fun b hb i hi => ?_, fun i hi => ?_, fun b hb he => ?_⟩
  · rcases hmid b hb with rfl | hb
    · exact horigin i hi
    · exact .inr ⟨b, hsub hb, hflags b hb ▸ hi, (hsame b hb).2.ge⟩
  · exact ⟨a, by simp, hmem.1, horigin i hi⟩
  · rcases hmid b hb with rfl | hb
    · exact absurd hlt he.not_gt
    · exact ⟨hsub hb, (hsame b hb).1.symm, (hsame b hb).2.symm⟩

theorem SameBounds.mono {bs : List ℕ} (h : SameBounds rq rq' as) (hs : bs ⊆ as) :
    SameBounds rq rq' bs := fun b hb => h b (hs hb)

/-- A change of the bounds of one block leaves those of the others. -/
theorem SameBounds.of_update {rq'' : ReassemblyQueue} {x y : TcpSeq} (h : SameBounds rq rq' as)
    (ha : a ∉ as) (hs : rq''.startseq = Function.update rq'.startseq a x)
    (he : rq''.endseq = Function.update rq'.endseq a y) : SameBounds rq rq'' as := by
  intro b hb
  have hne : b ≠ a := ne_of_mem_of_not_mem hb ha
  rw [hs, he, Function.update_of_ne hne, Function.update_of_ne hne]
  exact h b hb

section Coalesce

variable (h : rq.Stores (pre ++ post)) (hse : sseq < eseq)
  (hpre : ∀ x ∈ pre, rq.endseq x ≤ sseq) (hpost : ∀ y ∈ post, eseq ≤ rq.startseq y)
  (ht : rq'.Threaded (pre ++ n :: post)) (hsame : SameBounds rq rq' (pre ++ post))
  (hs : rq'.startseq n = sseq) (he : rq'.endseq n = eseq)
  (htotal : rq'.total = rq.total + (eseq - sseq)) (hnext : rq'.rcvNxt = rq.rcvNxt)
  (hflags : ∀ x ∈ pre ++ post, rq'.pflags x = rq.pflags x) (hf : rq'.pflags n = tiflags)
include h hse hpre hpost ht hsame hs he htotal hnext hflags hf

/-- A block that touches one before it or one after it is joined to what it touches. -/
theorem Stores.coalesce (hm : (∃ p ∈ pre.getLast?, rq.endseq p = sseq) ∨
      ∃ q ∈ post.head?, rq.startseq q = eseq) :
    ∃ rq'' flags bs, rq'.coalesce pre.getLast? n post.head? = .ok (rq'', flags) ∧
      Inserted rq (pre ++ post) sseq eseq tiflags rq'' flags bs := by
  obtain ⟨hsp, hsq⟩ := List.forall_mem_append.mp hsame
  obtain ⟨hflp, hflq⟩ := List.forall_mem_append.mp hflags
  obtain ⟨hpsep, hqsep, hpq⟩ := ordered_append.mp h.ordered
  rw [ReassemblyQueue.coalesce, ReassemblyQueue.join]
  cases hP : pre.getLast?.filter fun p => rq'.endseq p = rq'.startseq n with
  | none =>
    have hstrict : ∀ p ∈ pre.getLast?, rq.endseq p ≠ sseq := fun p hp hps =>
      Option.filter_eq_none_iff.mp hP p hp <| by
        simp [(hsp p (List.mem_of_getLast? hp)).2, hps, hs]
    have hpre := hpsep.hi_lt_of_getLast? hpre hstrict
    cases hQ : post.head?.filter fun q => rq'.endseq n = rq'.startseq q with
    | none =>
      exfalso
      rcases hm with ⟨p, hp, hps⟩ | ⟨q, hq, hqe⟩
      · exact hstrict p hp hps
      · refine Option.filter_eq_none_iff.mp hQ q hq ?_
        simp [(hsq q (List.mem_of_mem_head? hq)).1, hqe, he]
    | some q =>
      obtain ⟨hQ, hQn⟩ := Option.filter_eq_some_iff.mp hQ
      obtain ⟨post, rfl⟩ := List.head?_eq_some_iff.mp hQ
      have hqe : rq.startseq q = eseq := by
        rw [← (hsq q (by simp)).1, ← he]
        exact (of_decide_eq_true hQn).symm
      have hfirst : ∀ y ∈ post, rq.endseq q < rq.startseq y := (ordered_cons.mp hqsep).2.1
      have hqle : eseq ≤ rq.endseq q := hqe ▸ h.ordered.le q (by simp)
      have hr := ht.remove
      have h' : rq.Stores (pre ++ [q] ++ post) := by simpa using h
      have hlist : pre ++ q :: post = pre ++ [q] ++ post := by simp
      have hsub : pre ++ post ⊆ pre ++ q :: post :=
        ((List.sublist_cons_self q post).append_left pre).subset
      have hqn : q ∉ pre ++ post := (List.nodup_cons.mp (List.nodup_middle.mp h.threaded.nodup)).1
      rw [hlist]
      refine ⟨_, _, pre ++ q :: post, rfl, ?_⟩
      refine Stores.inserted [q] h' ⟨hr.linked, hr.stacked⟩ ?_ ?_ (hsq q (by simp)).2 hpre
        hfirst ?_ ?_ hse hnext rfl (fun x hx => ?_) (Function.update_self ..) fun i hi => ?_
      · exact (hsame.mono hsub).of_update hqn rfl (Function.update_eq_self ..).symm
      · exact (Function.update_self ..).trans hs
      · rw [covered, cover_cons, cover_nil, Set.union_empty, hqe, Set.union_comm,
          Set.Ico_union_Ico_eq_Ico hse.le hqle]
      · change rq'.total = _
        rw [htotal, extent_cons, extent_nil, hqe]
        omega
      · exact (Function.update_of_ne (ne_of_mem_of_not_mem hx hqn) ..).trans (hflags x (hsub hx))
      · rw [hflq q (by simp), hf] at hi
        exact .of_or (by simp) le_rfl hqle hi
  | some p =>
    obtain ⟨hP, hPn⟩ := Option.filter_eq_some_iff.mp hP
    obtain ⟨pre, rfl⟩ := List.getLast?_eq_some_iff.mp hP
    have hps : rq.endseq p = sseq := by
      rw [← (hsp p (by simp)).2, ← hs]
      simpa using hPn
    have hlast : ∀ x ∈ pre, rq.endseq x < rq.startseq p := by
      exact fun x hx => (ordered_append.mp hpsep).2.2 x hx p (by simp)
    have hp : rq'.startseq p = rq.startseq p := (hsp p (by simp)).1
    have hle : rq.startseq p ≤ sseq := hps ▸ h.ordered.le p (by simp)
    have hpn : p ∉ pre ++ post := by
      have hd := h.threaded.nodup
      rw [List.append_assoc, List.singleton_append, List.nodup_middle] at hd
      exact (List.nodup_cons.mp hd).1
    have hsub' : pre ++ post ⊆ pre ++ [p] ++ post :=
      ((List.sublist_append_left pre [p]).append_right post).subset
    have hsame' : SameBounds rq rq' (pre ++ post) := hsame.mono hsub'
    have hflags' : ∀ x ∈ pre ++ post, rq'.pflags x = rq.pflags x := fun x hx => hflags x (hsub' hx)
    cases hQ : post.head?.filter fun q => rq'.endseq n = rq'.startseq q with
    | none =>
      have hstrict : ∀ q ∈ post.head?, rq.startseq q ≠ eseq := fun q hq hqe =>
        Option.filter_eq_none_iff.mp hQ q hq <| by
          simp [(hsq q (List.mem_of_mem_head? hq)).1, hqe, he]
      have hr := ht.remove
      rw [List.append_assoc, List.singleton_append] at hr
      refine ⟨_, _, pre ++ p :: post, rfl, ?_⟩
      refine Stores.inserted [p] h ⟨hr.linked, hr.stacked⟩ ?_ hp ?_ hlast
        (hqsep.lt_lo_of_head? hpost hstrict) ?_ ?_ hse hnext rfl (fun x hx => ?_)
        (Function.update_self ..) fun i hi => ?_
      · exact hsame'.of_update hpn (Function.update_eq_self ..).symm rfl
      · exact (Function.update_self ..).trans he
      · simp [covered, hps, Set.Ico_union_Ico_eq_Ico hle hse.le]
      · change rq'.total = _
        rw [htotal, extent_cons, extent_nil, hps]
        omega
      · exact (Function.update_of_ne (ne_of_mem_of_not_mem hx hpn) ..).trans (hflags' x hx)
      · rw [hflp p (by simp), hf] at hi
        exact .of_or (by simp) (hps.le.trans hse.le) le_rfl hi
    | some q =>
      obtain ⟨hQ, hQn⟩ := Option.filter_eq_some_iff.mp hQ
      obtain ⟨post, rfl⟩ := List.head?_eq_some_iff.mp hQ
      have hqe : rq.startseq q = eseq := by
        rw [← (hsq q (by simp)).1, ← he]
        exact (of_decide_eq_true hQn).symm
      have hfirst : ∀ y ∈ post, rq.endseq q < rq.startseq y := (ordered_cons.mp hqsep).2.1
      have hqle : eseq ≤ rq.endseq q := hqe ▸ h.ordered.le q (by simp)
      have hr := ht.remove_two
      rw [List.append_assoc, List.singleton_append] at hr
      have h' : rq.Stores (pre ++ [p, q] ++ post) := by simpa using h
      have hlist : pre ++ [p] ++ q :: post = pre ++ [p, q] ++ post := by simp
      have hsub : pre ++ post ⊆ pre ++ q :: post :=
        ((List.sublist_cons_self q post).append_left pre).subset
      rw [hlist]
      refine ⟨_, _, pre ++ p :: post, rfl, ?_⟩
      refine Stores.inserted [p, q] h' ⟨hr.linked, hr.stacked⟩ ?_ hp ?_ hlast hfirst
        ?_ ?_ hse hnext rfl (fun x hx => ?_) (Function.update_self ..) fun i hi => ?_
      · exact (hsame'.mono hsub).of_update (fun hm => hpn (hsub hm))
          (Function.update_eq_self ..).symm rfl
      · exact (Function.update_self ..).trans (hsq q (by simp)).2
      · rw [covered, cover_cons, cover_cons, cover_nil, Set.union_empty, hps, hqe, Set.union_assoc,
          Set.union_comm (Set.Ico eseq _), ← Set.union_assoc,
          Set.Ico_union_Ico_eq_Ico hle hse.le, Set.Ico_union_Ico_eq_Ico (hle.trans hse.le) hqle]
      · change rq'.total = _
        rw [htotal, extent_cons, extent_cons, extent_nil, hps, hqe]
        omega
      · exact (Function.update_of_ne (ne_of_mem_of_not_mem (hsub hx) hpn) ..).trans
          (hflags' x (hsub hx))
      · rw [hflp p (by simp), hf] at hi
        exact .of_or (by simp) (hps.le.trans (hse.le.trans hqle)) hqle hi

end Coalesce

/-- A new block goes between `pre` and `post`, where `needmerge` tells whether it touches them. -/
theorem Stores.endfast (needmerge : Bool) (h : rq.Stores (pre ++ post)) (hse : sseq < eseq)
    (hpre : ∀ x ∈ pre, rq.endseq x ≤ sseq) (hpost : ∀ y ∈ post, eseq ≤ rq.startseq y)
    (hm : needmerge = true ↔ (∃ p ∈ pre.getLast?, rq.endseq p = sseq) ∨
      ∃ q ∈ post.head?, rq.startseq q = eseq)
    (tiflags : TcpFlag) (rqflags : RqFlag) (initcnt : ℤ) :
    ∃ rq' flags bs,
      rq.endfast sseq eseq tiflags rqflags initcnt needmerge pre.getLast? post.head? =
        .ok (rq', flags) ∧ Inserted rq (pre ++ post) sseq eseq tiflags rq' flags bs := by
  obtain ⟨free, hl⟩ := h.threaded.linked
  obtain ⟨n, freelist, brk, free, hnew, hl⟩ := newseginfo_eq hl
  have hn : n ∉ pre ++ post := hl.notMem_of_out List.mem_cons_self
  have hstack := h.threaded.stacked.push hl.insert.nodup
  have hsame : ∀ {startseq endseq : ℕ → TcpSeq}, startseq = Function.update rq.startseq n sseq →
      endseq = Function.update rq.endseq n eseq →
      ∀ b ∈ pre ++ post, startseq b = rq.startseq b ∧ endseq b = rq.endseq b := by
    rintro _ _ rfl rfl b hb
    have hne : b ≠ n := ne_of_mem_of_not_mem hb hn
    exact ⟨Function.update_of_ne hne .., Function.update_of_ne hne ..⟩
  have hflags : ∀ {pflags : ℕ → TcpFlag}, pflags = Function.update rq.pflags n tiflags →
      ∀ b ∈ pre ++ post, pflags b = rq.pflags b := by
    rintro _ rfl b hb
    exact Function.update_of_ne (ne_of_mem_of_not_mem hb hn) ..
  rw [ReassemblyQueue.endfast, newBlock, hnew]
  cases needmerge with
  | true =>
    exact h.coalesce hse hpre hpost ⟨⟨free, hl.insert⟩, hstack⟩ (hsame rfl rfl)
      (Function.update_self ..) (Function.update_self ..) rfl rfl (hflags rfl)
      (Function.update_self ..) (hm.mp rfl)
  | false =>
    have hno := mt hm.mpr Bool.false_ne_true
    rw [not_or] at hno
    obtain ⟨hpsep, hqsep, -⟩ := ordered_append.mp h.ordered
    have hpre := hpsep.hi_lt_of_getLast? hpre fun p hp he => hno.1 ⟨p, hp, he⟩
    have hpost := hqsep.lt_lo_of_head? hpost fun q hq he => hno.2 ⟨q, hq, he⟩
    have hlist : pre ++ post = pre ++ [] ++ post := by simp
    refine ⟨_, _, pre ++ n :: post, rfl, ?_⟩
    rw [hlist]
    refine Stores.inserted [] (hlist ▸ h) ⟨⟨free, hl.insert⟩, hstack⟩ (hsame rfl rfl)
      (Function.update_self ..) (Function.update_self ..) hpre hpost ?_ ?_ hse rfl ?_ (hflags rfl)
      (Function.update_self ..) fun i hi => .inl ⟨hi, le_rfl⟩
    · rw [covered, cover_nil, Set.empty_union]
    · rw [extent_nil, sub_zero]
      rfl
    · change (if sseq ≤ rq.rcvNxt then eseq else rq.rcvNxt) =
        if Function.update rq.startseq n sseq n ≤ rq.rcvNxt then Function.update rq.endseq n eseq n
        else rq.rcvNxt
      rw [Function.update_self, Function.update_self]

end ReassemblyQueue

end Ns2XPass
