import Ns2XPass.Reassembly.Insertion

/-! # Joining a new block

A block that touches others is joined to the one before it, or else to the one
after it. The block that results stays where it is on the LIFO.
-/

namespace Ns2XPass

namespace ReassemblyQueue

variable {rq rq' : ReassemblyQueue} {as pre post stack : List ℕ} {a b n p q : ℕ}
  {s e lo hi : TcpSeq} {f : TcpFlag} {rqflags : RqFlag} {initcnt : ℤ}

/-- The FIFO threads the blocks `as`, and the LIFO the same ones from the top on. -/
structure Listed (rq : ReassemblyQueue) (as stack : List ℕ) : Prop where
  linked : ∃ free, FifoLinked rq.fifo rq.freelist rq.brk as [] free
  spells : rq.lifo.Spells stack
  same : stack.Perm as

namespace Listed

theorem threaded (h : rq.Listed as stack) : rq.Threaded as :=
  ⟨h.linked, stack, h.spells, h.same⟩

theorem nodup (h : rq.Listed as stack) : stack.Nodup := h.same.nodup_iff.mpr h.threaded.nodup

theorem notMem (h : rq.Listed (pre ++ a :: post) stack) : a ∉ pre ++ post :=
  (List.nodup_cons.mp (List.nodup_middle.mp h.threaded.nodup)).1

theorem filter_perm (h : rq.Listed (pre ++ a :: post) stack) :
    (stack.filter fun b => b ≠ a).Perm (pre ++ post) := by
  have hfilter : (pre ++ a :: post).filter (fun b => b ≠ a) = pre ++ post := by
    rw [List.filter_append, List.filter_cons_of_neg (by simp), ← List.filter_append]
    exact List.filter_eq_self.mpr fun b hb => by simpa using ne_of_mem_of_not_mem hb h.notMem
  rw [← hfilter]
  exact h.same.filter _

theorem remove (h : rq.Listed (pre ++ a :: post) stack) :
    (((rq.fremove a).sremove a).deleteseginfo a).Listed (pre ++ post)
      (stack.filter fun b => b ≠ a) where
  linked := h.threaded.remove.linked
  spells := h.spells.remove_filter h.nodup (h.same.mem_iff.mpr (by simp))
  same := h.filter_perm

/-- Two neighbours leave the lists before either is deleted. -/
theorem remove_two (h : rq.Listed (pre ++ a :: b :: post) stack) :
    ((((((rq.sremove a).fremove a).sremove b).fremove b).deleteseginfo a).deleteseginfo
      b).Listed (pre ++ post) ((stack.filter fun x => x ≠ a).filter fun x => x ≠ b) where
  linked := h.threaded.remove_two.linked
  spells := (h.spells.remove_filter h.nodup (h.same.mem_iff.mpr (by simp))).remove_filter
    (h.nodup.filter _) (h.filter_perm.mem_iff.mpr (by simp))
  same := by
    have hb : b ∉ pre ++ post := by
      have hd := (List.nodup_cons.mp (List.nodup_middle.mp h.threaded.nodup)).2
      exact (List.nodup_cons.mp (List.nodup_middle.mp hd)).1
    have hfilter : (pre ++ b :: post).filter (fun x => x ≠ b) = pre ++ post := by
      rw [List.filter_append, List.filter_cons_of_neg (by simp), ← List.filter_append]
      exact List.filter_eq_self.mpr fun x hx => by simpa using ne_of_mem_of_not_mem hx hb
    rw [← hfilter]
    exact h.filter_perm.filter _

theorem congr (h : rq.Listed as stack) (hf : rq'.fifo = rq.fifo) (hl : rq'.lifo = rq.lifo)
    (hfree : rq'.freelist = rq.freelist) (hbrk : rq'.brk = rq.brk) : rq'.Listed as stack := by
  obtain ⟨free, hlinked⟩ := h.linked
  refine ⟨⟨free, ?_⟩, hl ▸ h.spells, h.same⟩
  rw [hf, hfree, hbrk]
  exact hlinked

end Listed

/-- The bounds and the flags of some blocks are those of another state. -/
def Keeping (rq rq' : ReassemblyQueue) (as : List ℕ) : Prop :=
  ∀ x ∈ as, rq'.startseq x = rq.startseq x ∧ rq'.endseq x = rq.endseq x ∧
    rq'.pflags x = rq.pflags x

/-- The block `b` has its place between `pre` and `post`, with these bounds and flags. -/
structure Placed (rq rq' : ReassemblyQueue) (pre post stack : List ℕ) (b : ℕ) (lo hi : TcpSeq)
    (f : TcpFlag) : Prop where
  listed : rq'.Listed (pre ++ b :: post) stack
  keeping : rq.Keeping rq' (pre ++ post)
  startseq : rq'.startseq b = lo
  endseq : rq'.endseq b = hi
  pflags : rq'.pflags b = f

/-- A call succeeds with the result that is described. -/
def Yields (result : Except RqError (ReassemblyQueue × TcpFlag))
    (P : ReassemblyQueue → TcpFlag → Prop) : Prop :=
  ∃ rq' flags, result = .ok (rq', flags) ∧ P rq' flags

/-- A new block is linked between the blocks `pre` and `post` and pushed on the LIFO. -/
theorem Listed.open (h : rq.Listed (pre ++ post) stack) (s e : TcpSeq) (f : TcpFlag)
    (rqflags : RqFlag) (initcnt : ℤ) :
    ∃ n rq₁, n ∉ pre ++ post ∧ Placed rq rq₁ pre post (n :: stack) n s e f ∧
      ∀ needmerge, rq.endfast s e f rqflags initcnt needmerge pre.getLast? post.head? =
        if needmerge then rq₁.coalesce pre.getLast? n post.head?
        else .ok ({ rq₁ with rcvNxt := if s ≤ rq₁.rcvNxt then e else rq₁.rcvNxt }, f) := by
  obtain ⟨free, hl⟩ := h.linked
  obtain ⟨n, freelist, brk, free, hnew, hl⟩ := newseginfo_eq hl
  have hn : n ∉ pre ++ post := hl.notMem_of_out List.mem_cons_self
  have hperm : (n :: stack).Perm (pre ++ n :: post) :=
    (h.same.cons n).trans List.perm_middle.symm
  have hspells : (rq.lifo.insert none n rq.lifo.head).Spells (n :: stack) := by
    have hs : rq.lifo.Spells ([] ++ stack) := h.spells
    rw [h.spells.head_eq]
    exact hs.insert (hperm.nodup_iff.mpr hl.insert.nodup)
  refine ⟨n, { rq with
    fifo := rq.fifo.insert pre.getLast? n post.head?
    lifo := rq.lifo.insert none n rq.lifo.head
    startseq := Function.update rq.startseq n s
    endseq := Function.update rq.endseq n e
    pflags := Function.update rq.pflags n f
    rqflags := Function.update rq.rqflags n rqflags
    cnt := Function.update rq.cnt n initcnt
    freelist, brk, total := rq.total + (e - s) }, hn, ⟨⟨⟨free, hl.insert⟩, hspells, hperm⟩,
    fun x hx => ?_, Function.update_self .., Function.update_self .., Function.update_self ..⟩,
    fun needmerge => ?_⟩
  · have hne : x ≠ n := ne_of_mem_of_not_mem hx hn
    exact ⟨Function.update_of_ne hne .., Function.update_of_ne hne .., Function.update_of_ne hne ..⟩
  · rw [endfast, newBlock, hnew]
    rfl

/-- A new block that touches no other one is on top of the LIFO. -/
theorem Listed.endfast_fresh (h : rq.Listed (pre ++ post) stack) (s e : TcpSeq) (f : TcpFlag)
    (rqflags : RqFlag) (initcnt : ℤ) :
    Yields (rq.endfast s e f rqflags initcnt false pre.getLast? post.head?) fun rq' flags =>
      flags = f ∧ ∃ n, n ∉ pre ++ post ∧ Placed rq rq' pre post (n :: stack) n s e f := by
  obtain ⟨n, rq₁, hn, hp, he⟩ := h.open s e f rqflags initcnt
  refine ⟨_, _, (he false).trans (if_neg Bool.false_ne_true), rfl, n, hn, ?_⟩
  exact ⟨hp.listed.congr rfl rfl rfl rfl, hp.keeping, hp.startseq, hp.endseq, hp.pflags⟩

/-- A new block leaves the lists again, once another one has taken it over. -/
theorem Listed.retract (h : rq.Listed (pre ++ n :: post) (n :: stack)) :
    (((rq.sremove n).fremove n).deleteseginfo n).Listed (pre ++ post) stack := by
  have hn : n ∉ stack := (List.nodup_cons.mp h.nodup).1
  have hfilter : (n :: stack).filter (fun b => b ≠ n) = stack := by
    rw [List.filter_cons_of_neg (by simp)]
    exact List.filter_eq_self.mpr fun b hb => by simpa using ne_of_mem_of_not_mem hb hn
  have hr := h.remove
  rw [hfilter] at hr
  exact hr.congr rfl rfl rfl rfl

section Touching

variable (hp : rq.endseq p = s) (hq : rq.startseq q = e)

include hp in
/-- The new block is joined to the one before it. -/
theorem Listed.endfast_left (h : rq.Listed (pre ++ p :: post) stack) (f : TcpFlag)
    (rqflags : RqFlag) (initcnt : ℤ) (hpost : ∀ q ∈ post.head?, rq.startseq q ≠ e) :
    Yields (rq.endfast s e f rqflags initcnt true (some p) post.head?) fun rq' flags =>
      flags = rq.pflags p ||| f ∧
        Placed rq rq' pre post stack p (rq.startseq p) e (rq.pflags p ||| f) := by
  have hnot := h.notMem
  have hlist : pre ++ p :: post = pre ++ [p] ++ post := by simp
  rw [hlist] at h
  obtain ⟨n, rq₁, hn, hplaced, he⟩ := h.open s e f rqflags initcnt
  have hpk := hplaced.keeping p (by simp)
  have hP : (some p).filter (fun p => rq₁.endseq p = rq₁.startseq n) = some p :=
    Option.filter_eq_some_iff.mpr ⟨rfl, decide_eq_true (by rw [hpk.2.1, hp, hplaced.startseq])⟩
  have hQ : post.head?.filter (fun q => rq₁.endseq n = rq₁.startseq q) = none :=
    Option.filter_eq_none_iff.mpr fun q hq => by
      have hqk := hplaced.keeping q (by simp [List.mem_of_mem_head? hq])
      simpa [hqk.1, hplaced.endseq] using (hpost q hq).symm
  have hlisted := hplaced.listed.retract
  rw [← hlist] at hlisted
  rw [List.getLast?_concat] at he
  rw [Yields, he true, if_pos rfl, coalesce, join, hP, hQ]
  refine ⟨_, _, rfl, by rw [hpk.2.2, hplaced.pflags], hlisted.congr rfl rfl rfl rfl, fun x hx => ?_,
    hpk.1, (Function.update_self ..).trans hplaced.endseq, ?_⟩
  · have hne : x ≠ p := ne_of_mem_of_not_mem hx hnot
    have hxk := hplaced.keeping x (by simp only [List.mem_append] at hx ⊢; tauto)
    exact ⟨hxk.1, (Function.update_of_ne hne ..).trans hxk.2.1,
      (Function.update_of_ne hne ..).trans hxk.2.2⟩
  · exact (Function.update_self ..).trans (by rw [hpk.2.2, hplaced.pflags])

include hq in
/-- The new block is joined to the one after it. -/
theorem Listed.endfast_right (h : rq.Listed (pre ++ q :: post) stack) (f : TcpFlag)
    (rqflags : RqFlag) (initcnt : ℤ) (hpre : ∀ p ∈ pre.getLast?, rq.endseq p ≠ s) :
    Yields (rq.endfast s e f rqflags initcnt true pre.getLast? (some q)) fun rq' flags =>
      flags = rq.pflags q ||| f ∧
        Placed rq rq' pre post stack q s (rq.endseq q) (rq.pflags q ||| f) := by
  have hnot := h.notMem
  obtain ⟨n, rq₁, hn, hplaced, he⟩ := h.open s e f rqflags initcnt
  have hqk := hplaced.keeping q (by simp)
  have hP : pre.getLast?.filter (fun p => rq₁.endseq p = rq₁.startseq n) = none :=
    Option.filter_eq_none_iff.mpr fun p hp => by
      have hpk := hplaced.keeping p (by simp [List.mem_of_getLast? hp])
      simpa [hpk.2.1, hplaced.startseq] using hpre p hp
  have hQ : (some q).filter (fun q => rq₁.endseq n = rq₁.startseq q) = some q :=
    Option.filter_eq_some_iff.mpr ⟨rfl, decide_eq_true (by rw [hqk.1, hq, hplaced.endseq])⟩
  have hlisted := hplaced.listed.retract
  rw [List.head?_cons] at he
  rw [Yields, he true, if_pos rfl, coalesce, join, hP, hQ]
  refine ⟨_, _, rfl, by rw [hqk.2.2, hplaced.pflags], hlisted.congr rfl rfl rfl rfl, fun x hx => ?_,
    (Function.update_self ..).trans hplaced.startseq, hqk.2.1, ?_⟩
  · have hne : x ≠ q := ne_of_mem_of_not_mem hx hnot
    have hxk := hplaced.keeping x (by simp only [List.mem_append, List.mem_cons] at hx ⊢; tauto)
    exact ⟨(Function.update_of_ne hne ..).trans hxk.1, hxk.2.1,
      (Function.update_of_ne hne ..).trans hxk.2.2⟩
  · exact (Function.update_self ..).trans (by rw [hqk.2.2, hplaced.pflags])

include hp hq in
/-- The new block fills the gap between two others: the flags of the second one are lost. -/
theorem Listed.endfast_both (h : rq.Listed (pre ++ p :: q :: post) stack) (f : TcpFlag)
    (rqflags : RqFlag) (initcnt : ℤ) :
    Yields (rq.endfast s e f rqflags initcnt true (some p) (some q)) fun rq' flags =>
      flags = rq.pflags p ||| f ∧
        Placed rq rq' pre post (stack.filter fun x => x ≠ q) p (rq.startseq p) (rq.endseq q)
          (rq.pflags p ||| f) := by
  have hnot : p ∉ pre ++ post := fun hm => h.notMem (by
    simp only [List.mem_append, List.mem_cons] at hm ⊢
    tauto)
  have hlist : pre ++ p :: q :: post = pre ++ [p] ++ q :: post := by simp
  rw [hlist] at h
  obtain ⟨n, rq₁, hn, hplaced, he⟩ := h.open s e f rqflags initcnt
  have hpk := hplaced.keeping p (by simp)
  have hqk := hplaced.keeping q (by simp)
  have hP : (some p).filter (fun p => rq₁.endseq p = rq₁.startseq n) = some p :=
    Option.filter_eq_some_iff.mpr ⟨rfl, decide_eq_true (by rw [hpk.2.1, hp, hplaced.startseq])⟩
  have hQ : (some q).filter (fun q => rq₁.endseq n = rq₁.startseq q) = some q :=
    Option.filter_eq_some_iff.mpr ⟨rfl, decide_eq_true (by rw [hqk.1, hq, hplaced.endseq])⟩
  have hstack : (n :: stack).filter (fun b => b ≠ n) = stack := by
    have hns : n ∉ stack := (List.nodup_cons.mp hplaced.listed.nodup).1
    rw [List.filter_cons_of_neg (by simp)]
    exact List.filter_eq_self.mpr fun b hb => by simpa using ne_of_mem_of_not_mem hb hns
  have hlisted := hplaced.listed.remove_two
  rw [hstack, List.append_assoc, List.singleton_append] at hlisted
  rw [List.getLast?_concat, List.head?_cons] at he
  rw [Yields, he true, if_pos rfl, coalesce, join, hP, hQ]
  refine ⟨_, _, rfl, by rw [hpk.2.2, hplaced.pflags], hlisted.congr rfl rfl rfl rfl, fun x hx => ?_,
    hpk.1, (Function.update_self ..).trans hqk.2.1, ?_⟩
  · have hne : x ≠ p := ne_of_mem_of_not_mem hx hnot
    have hxk := hplaced.keeping x (by simp only [List.mem_append, List.mem_cons] at hx ⊢; tauto)
    exact ⟨hxk.1, (Function.update_of_ne hne ..).trans hxk.2.1,
      (Function.update_of_ne hne ..).trans hxk.2.2⟩
  · exact (Function.update_self ..).trans (by rw [hpk.2.2, hplaced.pflags])

end Touching

end ReassemblyQueue

end Ns2XPass
