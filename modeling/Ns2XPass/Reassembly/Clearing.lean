import Ns2XPass.Reassembly.Insertion

/-! # Clearing the reassembly queue

`clear` deletes every block. `clearto` deletes the blocks that end by a sequence
number and trims the one that goes on beyond it.
-/

namespace Ns2XPass

namespace ReassemblyQueue

variable {rq rq' : ReassemblyQueue} {as pre post free : List ℕ} {a n : ℕ} {seq : TcpSeq}

/-- The loop of `clear` moves the blocks from the head on to the free list. -/
theorem deleteAll_eq (hs : Segment rq.fifo.next rq.fifo.head as none)
    (hf : Segment rq.fifo.next rq.freelist free none) (ha : Allocated rq.brk (as ++ free))
    (hn : as.length ≤ n) :
    ∃ next freelist free', deleteAll n rq =
        .ok { rq with fifo := { rq.fifo with next, head := none }, freelist } ∧
      Segment next freelist free' none ∧ Allocated rq.brk free' := by
  induction as generalizing rq free n with
  | nil =>
    have hnone : rq.fifo.head = none := hs
    have he : deleteAll n rq = .ok rq := by
      cases n <;> simp [deleteAll, ReassemblyQueue.empty, hnone]
    refine ⟨rq.fifo.next, rq.freelist, free, ?_, hf, ha⟩
    rw [he, ← hnone]
  | cons a as ih =>
    obtain ⟨n, rfl⟩ : ∃ k, n = k + 1 := ⟨n - 1, by rw [List.length_cons] at hn; omega⟩
    obtain ⟨hhead, hs⟩ := hs
    have hnd := ha.nodup
    rw [List.cons_append] at hnd
    have hna := (List.nodup_cons.mp hnd).1
    rw [deleteAll, hhead]
    have hf' : Segment (Function.update rq.fifo.next a rq.freelist) (some a) (a :: free) none := by
      refine ⟨rfl, ?_⟩
      rw [Function.update_self]
      exact hf.update fun hm => hna (List.mem_append_right as hm)
    exact ih (hs.update fun hm => hna (List.mem_append_left free hm)) hf'
      (ha.perm List.perm_middle.symm) (by rw [List.length_cons] at hn; omega)

theorem Threaded.clear (h : rq.Threaded as) :
    ∃ rq', rq.clear = .ok rq' ∧ rq'.Holds [] ∧ rq'.rcvNxt = rq.rcvNxt := by
  obtain ⟨free, hl⟩ := h.linked
  let cut : ReassemblyQueue :=
    { rq with
      fifo := { rq.fifo with tail := none }
      lifo := { rq.lifo with head := none, tail := none }
      hint := none }
  have hs : Segment cut.fifo.next cut.fifo.head as none := hl.spells.forward
  obtain ⟨next, freelist, free, he, hf, ha⟩ :=
    deleteAll_eq (n := rq.brk) hs hl.unused hl.allocated hl.length_le
  rw [ReassemblyQueue.clear, he]
  refine ⟨_, rfl, ⟨⟨⟨free, ⟨rfl, rfl⟩, hf, ha⟩, [], ⟨rfl, rfl⟩, .nil⟩, separated_nil, rfl⟩, rfl⟩

/-- The queue without one of its blocks. -/
theorem Stores.erase (h : rq.Stores (pre ++ a :: post)) (ht : rq'.Threaded (pre ++ post))
    (hs : rq'.startseq = rq.startseq) (he : rq'.endseq = rq.endseq)
    (htotal : rq'.total = rq.total - (rq.endseq a - rq.startseq a)) : rq'.Stores (pre ++ post) := by
  refine ⟨ht, ?_, ?_⟩
  · rw [hs, he]
    exact h.ordered.sublist ((List.sublist_cons_self a post).append_left pre)
  · rw [htotal, h.total, hs, he, extent_append, extent_append, extent_cons]
    omega

/-- The blocks and `rcv_nxt_` are those of another state. -/
structure SameBlocks (rq rq' : ReassemblyQueue) : Prop where
  startseq : rq'.startseq = rq.startseq
  endseq : rq'.endseq = rq.endseq
  rcvNxt : rq'.rcvNxt = rq.rcvNxt

theorem SameBlocks.trans {rq'' : ReassemblyQueue} (h : SameBlocks rq rq')
    (h' : SameBlocks rq' rq'') : SameBlocks rq rq'' :=
  ⟨h'.startseq.trans h.startseq, h'.endseq.trans h.endseq, h'.rcvNxt.trans h.rcvNxt⟩

theorem SameBlocks.covered_eq (h : SameBlocks rq rq') : rq'.covered as = rq.covered as := by
  rw [covered, h.startseq, h.endseq, covered]

/-- The loop of `clearto` deletes the blocks that end by `seq` and collects their flags. -/
theorem Stores.clearBelow (h : rq.Stores as) (seq : TcpSeq) (flag : TcpFlag) (hn : as.length < n) :
    ∃ rq' flag' pre post, clearBelow seq n rq flag as.head? = .ok (rq', flag', post.head?) ∧
      as = pre ++ post ∧ (∀ x ∈ pre, rq.endseq x ≤ seq) ∧ (∀ y ∈ post.head?, seq < rq.endseq y) ∧
      rq'.Stores post ∧ SameBlocks rq rq' ∧ rq'.pflags = rq.pflags ∧
      ∀ i, flag'.getLsbD i = true → flag.getLsbD i = true ∨
        ∃ x ∈ pre, (rq.pflags x).getLsbD i = true := by
  induction as generalizing rq flag n with
  | nil =>
    refine ⟨rq, flag, [], [], ?_, rfl, by simp, by simp, h, ⟨rfl, rfl, rfl⟩, rfl, fun _ => .inl⟩
    cases n <;> rfl
  | cons a as ih =>
    obtain ⟨n, rfl⟩ : ∃ k, n = k + 1 := ⟨n - 1, by omega⟩
    rw [List.head?_cons, ReassemblyQueue.clearBelow]
    split_ifs with hseq
    · have h₀ : rq.Stores ([] ++ a :: as) := h
      have hr := h₀.threaded.remove
      have h' : ((({ rq with total := rq.total - (rq.endseq a - rq.startseq a) }.sremove a).fremove
          a).deleteseginfo a).Stores ([] ++ as) := h₀.erase ⟨hr.linked, hr.stacked⟩ rfl rfl rfl
      obtain ⟨rq', flag', pre, post, he, rfl, hpre, hpost, hh, hsame, hpf, hflag⟩ :=
        ih (n := n) h' (flag ||| rq.pflags a) (by rw [List.length_cons] at hn; omega)
      refine ⟨rq', flag', a :: pre, post, ?_, rfl, List.forall_mem_cons.mpr ⟨hseq, hpre⟩, hpost,
        hh, ⟨hsame.startseq, hsame.endseq, hsame.rcvNxt⟩, hpf, fun i hi => ?_⟩
      · rw [← he, h₀.threaded.spells.next_eq]
      · rcases hflag i hi with hi | ⟨x, hx, hi⟩
        · rw [BitVec.getLsbD_or, Bool.or_eq_true] at hi
          exact hi.imp_right fun hi => ⟨a, List.mem_cons_self, hi⟩
        · exact .inr ⟨x, List.mem_cons_of_mem a hx, hi⟩
    · exact ⟨rq, flag, [], a :: as, rfl, rfl, by simp, by simpa using hseq, h, ⟨rfl, rfl, rfl⟩, rfl,
        fun _ => .inl⟩

section Trim

variable {flag : TcpFlag}

theorem trim_endseq : (rq.trim seq flag a).1.endseq = rq.endseq := by
  rw [ReassemblyQueue.trim]
  split_ifs <;> rfl

theorem trim_pflags : (rq.trim seq flag a).1.pflags = rq.pflags := by
  rw [ReassemblyQueue.trim]
  split_ifs <;> rfl

/-- A block that is empty after it has been trimmed has not been trimmed. -/
theorem trim_startseq_of_le {b : ℕ} (ha : seq < rq.endseq a)
    (hb : rq.endseq b ≤ (rq.trim seq flag a).1.startseq b) :
    (rq.trim seq flag a).1.startseq b = rq.startseq b := by
  rw [ReassemblyQueue.trim] at hb ⊢
  split_ifs at hb ⊢ with hs
  · dsimp only at hb ⊢
    by_cases hba : b = a
    · subst hba
      rw [Function.update_self] at hb
      exact absurd ha hb.not_gt
    · rw [Function.update_of_ne hba]
  · rfl

theorem trim_flags {i : ℕ} (h : (rq.trim seq flag a).2.getLsbD i = true) :
    flag.getLsbD i = true ∨ (rq.pflags a).getLsbD i = true ∧ rq.startseq a ≤ seq := by
  rw [ReassemblyQueue.trim] at h
  split_ifs at h with hs
  · rw [BitVec.getLsbD_or, Bool.or_eq_true] at h
    exact h.imp_right fun h => ⟨h, hs.1⟩
  · exact .inl h

theorem Stores.trim (h : rq.Stores (a :: as)) (ha : seq < rq.endseq a) (flag : TcpFlag) :
    (rq.trim seq flag a).1.Stores (a :: as) ∧
      (rq.trim seq flag a).1.covered (a :: as) = rq.covered (a :: as) ∩ Set.Ici seq ∧
      (rq.trim seq flag a).1.rcvNxt = rq.rcvNxt := by
  obtain ⟨hne, hlt, hsep⟩ := ordered_cons.mp h.ordered
  have hrest : ∀ b ∈ as, seq ≤ rq.startseq b := fun b hb => ha.le.trans (hlt b hb).le
  rw [ReassemblyQueue.trim]
  split_ifs with hs
  · have haas : a ∉ as := (List.nodup_cons.mp h.threaded.nodup).1
    have hsame : ∀ b ∈ [] ++ as,
        Function.update rq.startseq a seq b = rq.startseq b ∧ rq.endseq b = rq.endseq b :=
      fun b hb => ⟨Function.update_of_ne (ne_of_mem_of_not_mem hb haas) .., rfl⟩
    have hself : Function.update rq.startseq a seq a = seq := Function.update_self ..
    have htotal : extent (Function.update rq.startseq a seq) rq.endseq (a :: as) =
        extent rq.startseq rq.endseq (a :: as) - (rq.endseq a - rq.startseq a + 0) +
          (rq.endseq a - Function.update rq.startseq a seq a) :=
      extent_replace [a] hsame
    refine ⟨⟨⟨h.threaded.linked, h.threaded.stacked⟩, ?_, ?_⟩, ?_, rfl⟩
    · have hsep : Ordered rq.startseq rq.endseq ([] ++ [a] ++ as) := h.ordered
      exact hsep.replace hsame (hself.trans_le ha.le) (by simp) hlt
    · change rq.total - (seq - rq.startseq a) =
        extent (Function.update rq.startseq a seq) rq.endseq (a :: as)
      rw [htotal, hself, h.total]
      abel
    · have hIco : Set.Ico (rq.startseq a) (rq.endseq a) ∩ Set.Ici seq = Set.Ico seq (rq.endseq a) := by
        ext x
        constructor
        · rintro ⟨⟨-, hx⟩, hseq⟩; exact ⟨hseq, hx⟩
        · rintro ⟨hseq, hx⟩; exact ⟨⟨hs.1.trans hseq, hx⟩, hseq⟩
      have hrest' : cover (Function.update rq.startseq a seq) rq.endseq as =
          cover rq.startseq rq.endseq as := cover_congr hsame
      change cover (Function.update rq.startseq a seq) rq.endseq (a :: as) = _
      rw [cover_cons, hself, hrest', covered, cover_cons,
        Set.union_inter_distrib_right, hIco, cover_inter_Ici_of_le_lo hrest]
  · refine ⟨h, ?_, rfl⟩
    have hlo : seq ≤ rq.startseq a := not_lt.mp fun hlt => hs ⟨hlt.le, ha⟩
    rw [covered, cover_inter_Ici_of_le_lo (List.forall_mem_cons.mpr ⟨hlo, hrest⟩)]

end Trim

/-- What `clearto` leaves of the blocks `as`, and the flags that it returns. -/
structure Cleared (rq : ReassemblyQueue) (as : List ℕ) (seq : TcpSeq) (rq' : ReassemblyQueue)
    (flags : TcpFlag) (bs : List ℕ) : Prop where
  stores : rq'.Stores bs
  covered : rq'.covered bs = rq.covered as ∩ Set.Ici seq
  rcvNxt : rq'.rcvNxt = rq.rcvNxt
  subset : bs ⊆ as
  endseq : rq'.endseq = rq.endseq
  pflags : rq'.pflags = rq.pflags
  empties : ∀ b ∈ bs, rq'.endseq b ≤ rq'.startseq b → rq'.startseq b = rq.startseq b
  given : ∀ i, flags.getLsbD i = true →
    ∃ a ∈ as, (rq.pflags a).getLsbD i = true ∧ rq.startseq a ≤ seq

theorem Stores.clearto (h : rq.Stores as) (seq : TcpSeq) :
    ∃ rq' flags bs, rq.clearto seq = .ok (rq', flags) ∧ Cleared rq as seq rq' flags bs := by
  obtain ⟨rq', flag, pre, post, he, rfl, hpre, hpost, hh, hsame, hpf, hflag⟩ :=
    h.clearBelow seq 0 (Nat.lt_succ_of_le h.threaded.length_le)
  have hcov : rq.covered (pre ++ post) ∩ Set.Ici seq = rq'.covered post ∩ Set.Ici seq := by
    rw [hsame.covered_eq, covered, cover_append, Set.union_inter_distrib_right,
      cover_inter_Ici_of_hi_le hpre, Set.empty_union, covered]
  have hflag : ∀ i, flag.getLsbD i = true →
      ∃ a ∈ pre ++ post, (rq.pflags a).getLsbD i = true ∧ rq.startseq a ≤ seq := fun i hi => by
    rcases hflag i hi with hi | ⟨x, hx, hi⟩
    · simp at hi
    · have hxm : x ∈ pre ++ post := List.mem_append_left post hx
      exact ⟨x, hxm, hi, (h.ordered.le x hxm).trans (hpre x hx)⟩
  have hsub : post ⊆ pre ++ post := List.subset_append_right pre post
  rw [ReassemblyQueue.clearto, h.threaded.spells.head_eq, he]
  cases post with
  | nil =>
    exact ⟨rq', flag, [], rfl, hh, by rw [hcov]; simp [covered], hsame.rcvNxt, List.nil_subset _,
      hsame.endseq, hpf, by simp, hflag⟩
  | cons y post =>
    have hend : seq < rq'.endseq y := hsame.endseq ▸ hpost y rfl
    obtain ⟨hh, htcov, hnext⟩ := hh.trim hend flag
    refine ⟨(rq'.trim seq flag y).1, (rq'.trim seq flag y).2, y :: post, rfl, hh, hcov ▸ htcov,
      hnext.trans hsame.rcvNxt, hsub, ?_, ?_, ?_, ?_⟩
    · rw [trim_endseq, hsame.endseq]
    · rw [trim_pflags, hpf]
    · intro b hb hle
      rw [trim_endseq] at hle
      rw [← hsame.startseq, trim_startseq_of_le hend hle]
    · intro i hi
      rcases trim_flags hi with hi | ⟨hi, hs⟩
      · exact hflag i hi
      · exact ⟨y, by simp, hpf ▸ hi, hsame.startseq ▸ hs⟩

/-- What remains is what lies from `seq` on. -/
theorem Holds.clearto (h : rq.Holds as) (seq : TcpSeq) :
    ∃ rq' flag bs, rq.clearto seq = .ok (rq', flag) ∧ rq'.Holds bs ∧
      rq'.covered bs = rq.covered as ∩ Set.Ici seq ∧ rq'.rcvNxt = rq.rcvNxt := by
  obtain ⟨rq', flags, bs, hok, hc⟩ := h.stores.clearto seq
  refine ⟨rq', flags, bs, hok, hc.stores.holds fun b hb => ?_, hc.covered, hc.rcvNxt⟩
  by_contra hle
  rw [not_lt] at hle
  have hne := h.separated.nonempty b (hc.subset hb)
  rw [← hc.empties b hb hle, ← hc.endseq] at hne
  exact hle.not_gt hne

end ReassemblyQueue

end Ns2XPass
