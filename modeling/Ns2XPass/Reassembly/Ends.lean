import Ns2XPass.Reassembly.Calls

/-! # An empty range behind all blocks

A segment without data that bears a FIN lies at the end of the stream. Adding it
changes neither what the blocks cover nor `rcv_nxt_`, and the last block bears
its flags.
-/

namespace Ns2XPass

namespace ReassemblyQueue

variable {rq rq' : ReassemblyQueue} {as stack : List ℕ} {s : TcpSeq} {f flags : TcpFlag}
  {rqflags : RqFlag} {initcnt : ℤ} {t n b : ℕ} {stack' : List ℕ}

/-- A block behind all others is joined to the last one or to none. -/
theorem coalesce_end (h : rq.coalesce (some t) n none = .ok (rq', flags))
    (ht : rq.rcvNxt < rq.startseq t) : rq'.total = rq.total ∧ rq'.rcvNxt = rq.rcvNxt := by
  unfold coalesce join at h
  by_cases hj : rq.endseq t = rq.startseq n
  · simp only [Option.filter_some, hj, decide_true, if_true, Option.filter_none] at h
    obtain ⟨rfl, -⟩ := Prod.mk.inj (Except.ok.inj h)
    exact ⟨rfl, if_neg ht.not_ge⟩
  · simp only [Option.filter_some, hj, decide_false, Bool.false_eq_true, if_false,
      Option.filter_none] at h
    obtain ⟨rfl, -⟩ := Prod.mk.inj (Except.ok.inj h)
    exact ⟨rfl, if_neg ht.not_ge⟩

theorem endfast_apart (hs : rq.rcvNxt < s) {p q : Option ℕ}
    (h : rq.endfast s s f rqflags initcnt false p q = .ok (rq', flags)) :
    rq'.total = rq.total ∧ rq'.rcvNxt = rq.rcvNxt := by
  unfold endfast newBlock newseginfo at h
  cases hf : rq.freelist with
  | none =>
    rw [hf] at h
    obtain ⟨rfl, -⟩ := Prod.mk.inj (Except.ok.inj h)
    exact ⟨by simp [push], if_neg hs.not_ge⟩
  | some m =>
    rw [hf] at h
    obtain ⟨rfl, -⟩ := Prod.mk.inj (Except.ok.inj h)
    exact ⟨by simp [push], if_neg hs.not_ge⟩

theorem endfast_end (hs : rq.rcvNxt < s) (ht : rq.rcvNxt < rq.startseq t) {needmerge : Bool}
    (h : rq.endfast s s f rqflags initcnt needmerge (some t) none = .ok (rq', flags)) :
    rq'.total = rq.total ∧ rq'.rcvNxt = rq.rcvNxt := by
  cases needmerge with
  | false => exact endfast_apart hs h
  | true =>
    have hstart : ∀ m, rq.rcvNxt < Function.update rq.startseq m s t := fun m => by
      rw [Function.update_apply]
      split_ifs
      · exact hs
      · exact ht
    unfold endfast newBlock newseginfo at h
    cases hf : rq.freelist with
    | none =>
      rw [hf] at h
      obtain ⟨htotal, hnext⟩ := coalesce_end h (hstart _)
      exact ⟨htotal.trans (by simp [push]), hnext⟩
    | some m =>
      rw [hf] at h
      obtain ⟨htotal, hnext⟩ := coalesce_end h (hstart _)
      exact ⟨htotal.trans (by simp [push]), hnext⟩

/-- All blocks begin above `rcv_nxt_` and end by `s`. -/
def Ahead (rq : ReassemblyQueue) (as : List ℕ) (s : TcpSeq) : Prop :=
  ∀ a ∈ as, rq.rcvNxt < rq.startseq a ∧ rq.endseq a ≤ s

/-- What adding an empty range changes besides the blocks. -/
theorem Stores.add_end_eq (h : rq.Stores as) (ha : rq.Ahead as s) (hs : rq.rcvNxt < s)
    (hok : rq.add s s f rqflags = .ok (rq', flags)) :
    rq'.total = rq.total ∧ rq'.rcvNxt = rq.rcvNxt := by
  have hspells := h.threaded.spells
  cases as with
  | nil =>
    obtain ⟨stack, hstack, hperm⟩ := h.threaded.stacked
    obtain rfl := hperm.eq_nil
    rw [add_eq_of_empty le_rfl hspells.head_eq hstack.head_eq] at hok
    cases he : rq.endfast s s f rqflags 1 false none none with
    | error e => rw [he] at hok; cases hok
    | ok r =>
      obtain ⟨rq₁, flags₁⟩ := r
      rw [he] at hok
      obtain ⟨rfl, -⟩ := Prod.mk.inj (Except.ok.inj hok)
      exact ⟨(sub_self s).trans h.total.symm, (endfast_apart hs he).2⟩
  | cons a as =>
    obtain ⟨t, ht⟩ := Option.ne_none_iff_exists'.mp
      (mt List.getLast?_eq_none_iff.mp (List.cons_ne_nil a as))
    obtain ⟨hstart, hend⟩ := ha t (List.mem_of_getLast? ht)
    rw [add_eq_again2 le_rfl hspells.head_eq, ReassemblyQueue.again2, hspells.head_eq,
      hspells.tail_eq, ht] at hok
    exact endfast_end hs hstart ((if_pos hend).symm.trans hok)

/-- An empty range is added at `s`. A block that is empty has been so, or is the range. -/
structure Ended (rq : ReassemblyQueue) (as : List ℕ) (s : TcpSeq) (f : TcpFlag)
    (rq' : ReassemblyQueue) (bs : List ℕ) : Prop where
  stores : rq'.Stores bs
  covered : rq'.covered bs = rq.covered as
  rcvNxt : rq'.rcvNxt = rq.rcvNxt
  ahead : rq'.Ahead bs s
  kept : ∀ b ∈ bs, ∀ i, (rq'.pflags b).getLsbD i = true → Origin rq as s f i (rq'.endseq b)
  empties : ∀ b ∈ bs, rq'.endseq b ≤ rq'.startseq b → rq'.endseq b = s ∨
    b ∈ as ∧ rq.startseq b = rq'.startseq b ∧ rq.endseq b = rq'.endseq b

/-- Of the blocks that end at `s` at most one touches the range there. -/
theorem Hull.extent_eq {mids : List ℕ} {lo hi : TcpSeq} (h : Hull rq mids s s lo hi)
    (hord : Ordered rq.startseq rq.endseq mids) (hend : ∀ x ∈ mids, rq.endseq x = s) :
    extent rq.startseq rq.endseq mids = s - lo := by
  match mids with
  | [] => rw [extent_nil, h.lo_eq.resolve_right (by simp), sub_self]
  | [a] =>
    have hlo : lo = rq.startseq a := by
      have hle := h.lo_le_of_mem a List.mem_cons_self
      rcases h.lo_eq with heq | ⟨x, hx, heq⟩
      · have hstart := (hord.le a List.mem_cons_self).trans_eq (hend a List.mem_cons_self)
        exact hle.antisymm (hstart.trans_eq heq.symm)
      · rwa [List.mem_singleton.mp hx] at heq
    rw [extent_cons, extent_nil, add_zero, hend a List.mem_cons_self, hlo]
  | a :: c :: mids =>
    obtain ⟨-, hlt, -⟩ := ordered_cons.mp hord
    have hlt := hlt c List.mem_cons_self
    have hle := hord.le c (by simp)
    rw [hend a (by simp)] at hlt
    rw [hend c (by simp)] at hle
    exact absurd hlt hle.not_gt

theorem Effect.ended (he : Effect rq as stack s s f rq' flags b stack') (h : rq.Stores as)
    (ha : rq.Ahead as s) (hs : rq.rcvNxt < s) (htotal : rq'.total = rq.total)
    (hnext : rq'.rcvNxt = rq.rcvNxt) :
    Ended rq as s f rq' (rq.before as s ++ [b]) := by
  obtain ⟨hlist, hkeeping, hhull, -, ⟨lost, -, hcollects⟩, -⟩ := id he
  have hordered := he.ordered h.ordered le_rfl
  have hbehind : rq.behind as s = [] := List.filter_eq_nil_iff.mpr fun x hx => by
    simpa using (h.ordered.le x hx).trans (ha x hx).2
  have hsplit : rq.before as s ++ rq.touching as s s ++ [] = as :=
    hbehind ▸ h.ordered.eq_filters le_rfl
  rw [hbehind] at hlist hkeeping hordered
  have htouch : ∀ x ∈ rq.touching as s s, x ∈ as ∧ rq.endseq x = s := fun x hx => by
    obtain ⟨hx, hle, -⟩ := mem_touching.mp hx
    exact ⟨hx, (ha x hx).2.antisymm hle⟩
  have hbefore : ∀ x ∈ rq.before as s, x ∈ as := fun x hx => (List.mem_filter.mp hx).1
  have hhi : rq'.endseq b = s := by
    rcases hhull.hi_eq with hhi | ⟨x, hx, hhi⟩
    · exact hhi
    · exact hhi.trans (htouch x hx).2
  have hsame : SameBounds rq rq' (rq.before as s ++ []) := fun x hx =>
    ⟨(hkeeping x hx).1, (hkeeping x hx).2.1⟩
  have hc : Set.Ico (rq'.startseq b) (rq'.endseq b) = rq.covered (rq.touching as s s) ∪ ∅ := by
    ext x
    rw [Set.union_empty, covered, mem_cover_iff, Set.mem_Ico, hhi]
    constructor
    · rintro ⟨hlo, hx⟩
      rcases hhull.lo_eq with heq | ⟨a, hat, heq⟩
      · exact absurd (heq ▸ hlo) hx.not_ge
      · exact ⟨a, hat, heq ▸ hlo, (htouch a hat).2.symm ▸ hx⟩
    · rintro ⟨a, hat, hlo, hx⟩
      exact ⟨(hhull.lo_le_of_mem a hat).trans hlo, (htouch a hat).2 ▸ hx⟩
  have hextent : extent rq.startseq rq.endseq (rq.touching as s s) =
      rq'.endseq b - rq'.startseq b := by
    rw [hhi]
    exact hhull.extent_eq (h.ordered.sublist List.filter_sublist) fun x hx => (htouch x hx).2
  have hpre : ∀ x ∈ rq.before as s, rq.endseq x < rq'.startseq b := fun x hx => by
    have hlt := (ordered_append.mp hordered).2.2 x hx b (by simp)
    rwa [(hkeeping x (by simpa using hx)).2.1] at hlt
  have htotal' : rq'.total = rq.total - extent rq.startseq rq.endseq (rq.touching as s s) +
      (rq'.endseq b - rq'.startseq b) := by
    rw [hextent, htotal, sub_add_cancel]
  have hstores := (hsplit.symm ▸ h).replace hlist.threaded hsame
    (hhull.lo_le.trans hhi.ge) hpre (by simp) hc htotal'
  rw [hsplit, Set.union_empty] at hstores
  have hahead : ∀ x ∈ rq.before as s ++ [b], rq'.rcvNxt < rq'.startseq x ∧ rq'.endseq x ≤ s := by
    refine List.forall_mem_append.mpr ⟨fun x hx => ?_, ?_⟩
    · obtain ⟨hstart, hend, -⟩ := hkeeping x (by simpa using hx)
      rw [hnext, hstart, hend]
      exact ha x (hbefore x hx)
    · rw [List.forall_mem_singleton, hnext]
      rcases hhull.lo_eq with heq | ⟨a, hat, heq⟩
      · exact ⟨heq ▸ hs, hhi.le⟩
      · exact ⟨heq ▸ (ha a (htouch a hat).1).1, hhi.le⟩
  refine ⟨hstores.1, hstores.2, hnext, hahead, fun x hx i hi => ?_, fun x hx hempty => ?_⟩
  · rcases List.mem_append.mp hx with hx | hx
    · obtain ⟨-, hend, hflags⟩ := hkeeping x (by simpa using hx)
      exact .inr ⟨x, hbefore x hx, hflags ▸ hi, hend.ge⟩
    · obtain rfl := List.mem_singleton.mp hx
      rcases (hcollects i).mp hi with hi | ⟨a, hat, -, hi⟩
      · exact .inl ⟨hi, hhi.ge⟩
      · exact .inr ⟨a, (htouch a hat).1, hi, ((htouch a hat).2.trans hhi.symm).le⟩
  · rcases List.mem_append.mp hx with hx | hx
    · obtain ⟨hstart, hend, -⟩ := hkeeping x (by simpa using hx)
      exact .inr ⟨hbefore x hx, hstart.symm, hend.symm⟩
    · exact .inl (List.mem_singleton.mp hx ▸ hhi)

theorem Stores.add_end (h : rq.Stores as) (ha : rq.Ahead as s) (hs : rq.rcvNxt < s) (f : TcpFlag)
    (rqflags : RqFlag) :
    ∃ rq' flags bs, rq.add s s f rqflags = .ok (rq', flags) ∧ Ended rq as s f rq' bs := by
  obtain ⟨stack, hspells, hsame⟩ := h.threaded.stacked
  have hl : rq.Listed as stack := ⟨h.threaded.linked, hspells, hsame⟩
  have hdang : ¬ rq.Dangling as s s := by
    rintro ⟨-, ⟨x, hx, hsx⟩, -⟩
    exact (ha x hx).2.not_gt hsx
  have hi : ¬ rq.Ignored as s s := by
    rintro ⟨-, -, ⟨x, hx, hsx⟩, -⟩
    exact (ha x hx).2.not_gt hsx
  obtain ⟨rq', flags, hok, b, stack', he⟩ := hl.add h.ordered le_rfl hdang hi f rqflags
  obtain ⟨htotal, hnext⟩ := h.add_end_eq ha hs hok
  exact ⟨rq', flags, _, hok, he.ended h ha hs htotal hnext⟩

end ReassemblyQueue

end Ns2XPass
