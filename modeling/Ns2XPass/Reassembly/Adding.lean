import Ns2XPass.Reassembly.Clearing

/-! # Adding to the reassembly queue

`add` deletes the blocks that the new one covers, extends those that it overlaps
otherwise, and inserts what is left of it.
-/

namespace Ns2XPass

namespace ReassemblyQueue

variable {rq rq' : ReassemblyQueue} {as bs pre mid post todo : List ℕ} {a b n : ℕ}
  {sseq eseq s e : TcpSeq} {tiflags : TcpFlag} {rqflags : RqFlag} {initcnt : ℤ}

/-- The block lies within the new one. -/
def inside (rq : ReassemblyQueue) (sseq eseq : TcpSeq) (a : ℕ) : Bool :=
  decide (sseq ≤ rq.startseq a ∧ rq.endseq a ≤ eseq)

/-- The queue holds what it held and `[sseq, eseq)`, and `rcv_nxt_` is at the end of the run. -/
def Adds (rq : ReassemblyQueue) (as : List ℕ) (sseq eseq : TcpSeq)
    (result : Except RqError (ReassemblyQueue × TcpFlag)) : Prop :=
  ∃ rq' flags bs, result = .ok (rq', flags) ∧ rq'.Holds bs ∧
    rq'.covered bs = rq.covered as ∪ Set.Ico sseq eseq ∧
    (ContiguousTo (rq.covered as) rq.rcvNxt → rq.rcvNxt ≤ sseq →
      IsLeast {x | rq.rcvNxt ≤ x ∧ x ∉ rq'.covered bs} rq'.rcvNxt)

/-- The queue `rq'` stores what the queue `rq` stored and `[sseq, eseq)`. If nothing is added
below `rcv_nxt_`, it is at the end of the run. Else it may be at the end of another block. -/
structure Gained (rq : ReassemblyQueue) (as : List ℕ) (sseq eseq : TcpSeq) (tiflags : TcpFlag)
    (rq' : ReassemblyQueue) (flags : TcpFlag) (bs : List ℕ) : Prop where
  stores : rq'.Stores bs
  covered : rq'.covered bs = rq.covered as ∪ Set.Ico sseq eseq
  least : ContiguousTo (rq.covered as) rq.rcvNxt → rq.rcvNxt ≤ sseq →
    IsLeast {x | rq.rcvNxt ≤ x ∧ x ∉ rq'.covered bs} rq'.rcvNxt
  next : rq'.rcvNxt = rq.rcvNxt ∨
    ∃ b ∈ bs, rq'.startseq b ≤ rq.rcvNxt ∧ rq'.rcvNxt = rq'.endseq b
  marks : Marks rq as sseq eseq tiflags rq' flags bs

def Gains (rq : ReassemblyQueue) (as : List ℕ) (sseq eseq : TcpSeq) (tiflags : TcpFlag)
    (result : Except RqError (ReassemblyQueue × TcpFlag)) : Prop :=
  ∃ rq' flags bs, result = .ok (rq', flags) ∧ Gained rq as sseq eseq tiflags rq' flags bs

/-- `rcv_nxt_` goes on with a block, or it stays. -/
theorem next_of_ite {r : TcpSeq} (ha : a ∈ bs)
    (h : rq'.rcvNxt = if rq'.startseq a ≤ r then rq'.endseq a else r) :
    rq'.rcvNxt = r ∨ ∃ b ∈ bs, rq'.startseq b ≤ r ∧ rq'.rcvNxt = rq'.endseq b := by
  split_ifs at h with hr
  · exact .inr ⟨a, ha, hr, h⟩
  · exact .inl h

section Kill

theorem head?_ne_some (hd : (as ++ post).Nodup) (ha : a ∈ as) : post.head? ≠ some a :=
  fun hq => (List.nodup_append.mp hd).2.2 a ha a (List.mem_of_mem_head? hq) rfl

/-- The loop over the blocks `todo` deletes those that lie within the new one. -/
theorem Stores.kill (h : rq.Stores (pre ++ todo ++ post)) (tiflags : TcpFlag) (initcnt : ℤ)
    (altered : Bool) (hne : ∀ a ∈ todo, ¬ (sseq = rq.startseq a ∧ eseq = rq.endseq a))
    (hn : todo.length < n) :
    ∃ rq' tiflags' initcnt',
      kill sseq eseq post.head? n rq tiflags initcnt altered (todo ++ post).head? =
        .ok (.done rq' tiflags' initcnt' (altered || todo.any (rq.inside sseq eseq))) ∧
      rq'.Stores (pre ++ todo.filter (fun a => !rq.inside sseq eseq a) ++ post) ∧
      SameBlocks rq rq' ∧ rq'.pflags = rq.pflags ∧
      ∀ i, tiflags'.getLsbD i = true → tiflags.getLsbD i = true ∨
        ∃ a ∈ todo, rq.inside sseq eseq a = true ∧ (rq.pflags a).getLsbD i = true := by
  induction todo generalizing rq pre n tiflags initcnt altered with
  | nil =>
    refine ⟨rq, tiflags, initcnt, ?_, h, ⟨rfl, rfl, rfl⟩, rfl, fun _ => .inl⟩
    obtain ⟨n, rfl⟩ : ∃ k, n = k + 1 := ⟨n - 1, by omega⟩
    cases post with
    | nil => simp [ReassemblyQueue.kill]
    | cons q post => simp [ReassemblyQueue.kill]
  | cons r todo ih =>
    obtain ⟨n, rfl⟩ : ∃ k, n = k + 1 := ⟨n - 1, by omega⟩
    rw [List.length_cons] at hn
    have hlist : pre ++ r :: todo ++ post = pre ++ r :: (todo ++ post) := by simp
    have hlist' : pre ++ todo ++ post = pre ++ (todo ++ post) := by simp
    have hnext : rq.fifo.next r = (todo ++ post).head? := (hlist ▸ h.threaded.spells).next_eq
    have hq : post.head? ≠ some r := head?_ne_some h.threaded.nodup (by simp)
    rw [List.cons_append, List.head?_cons, ReassemblyQueue.kill, if_neg hq,
      if_neg (hne r List.mem_cons_self), hnext]
    split_ifs with hr
    · have hin : rq.inside sseq eseq r = true := decide_eq_true hr
      have ht := (hlist ▸ h.threaded).remove
      have h' : ((({ rq with total := rq.total - (rq.endseq r - rq.startseq r) }.fremove r).sremove
          r).deleteseginfo r).Stores (pre ++ (todo ++ post)) :=
        (hlist ▸ h).erase ⟨ht.linked, ht.stacked⟩ rfl rfl rfl
      rw [← hlist'] at h'
      obtain ⟨rq', tiflags', initcnt', he, hh, hsame, hpf, hflags⟩ :=
        ih h' (tiflags ||| rq.pflags r) (initcnt + rq.cnt r) true
          (fun a ha => hne a (List.mem_cons_of_mem r ha)) (Nat.lt_of_succ_lt_succ hn)
      refine ⟨rq', tiflags', initcnt', ?_, ?_, ⟨hsame.startseq, hsame.endseq, hsame.rcvNxt⟩, hpf,
        fun i hi => ?_⟩
      · rw [he, List.any_cons, hin, Bool.true_or, Bool.true_or, Bool.or_true]
      · rw [List.filter_cons_of_neg (by simp [hin])]
        exact hh
      · rcases hflags i hi with hi | ⟨a, ha, hia, hi⟩
        · rw [BitVec.getLsbD_or, Bool.or_eq_true] at hi
          exact hi.imp_right fun hi => ⟨r, List.mem_cons_self, hin, hi⟩
        · exact .inr ⟨a, List.mem_cons_of_mem r ha, hia, hi⟩
    · have hin : rq.inside sseq eseq r = false := decide_eq_false hr
      have hlist'' : pre ++ r :: todo ++ post = pre ++ [r] ++ todo ++ post := by simp
      obtain ⟨rq', tiflags', initcnt', he, hh, hsame, hpf, hflags⟩ :=
        ih (hlist'' ▸ h) tiflags initcnt altered
          (fun a ha => hne a (List.mem_cons_of_mem r ha)) (Nat.lt_of_succ_lt_succ hn)
      refine ⟨rq', tiflags', initcnt', ?_, ?_, hsame, hpf, fun i hi => (hflags i hi).imp_right
        fun ⟨a, ha, hia, hi⟩ => ⟨a, List.mem_cons_of_mem r ha, hia, hi⟩⟩
      · rw [he, List.any_cons, hin, Bool.false_or]
      · rw [List.filter_cons_of_pos (by simp [hin])]
        simpa using hh

/-- The loop passes the blocks `todo` and stops at a block that is the new one. -/
theorem kill_exact {c : ℕ} {q : Option ℕ} (todo : List ℕ)
    (hs : rq.fifo.Spells (pre ++ todo ++ c :: post))
    (hq : ∀ a ∈ todo ++ [c], q ≠ some a)
    (hne : ∀ a ∈ todo, ¬ (sseq = rq.startseq a ∧ eseq = rq.endseq a) ∧
      ¬ (sseq ≤ rq.startseq a ∧ rq.endseq a ≤ eseq))
    (hc : sseq = rq.startseq c ∧ eseq = rq.endseq c) (hn : todo.length < n) (altered : Bool) :
    kill sseq eseq q n rq tiflags initcnt altered (todo ++ [c]).head? =
      .ok (.exact { rq with pflags := Function.update rq.pflags c (rq.pflags c ||| tiflags) }
        (rq.pflags c ||| tiflags)) := by
  induction todo generalizing pre n with
  | nil =>
    obtain ⟨n, rfl⟩ : ∃ k, n = k + 1 := ⟨n - 1, by omega⟩
    rw [List.nil_append, List.head?_cons, ReassemblyQueue.kill, if_neg (hq c (by simp)), if_pos hc]
  | cons r todo ih =>
    obtain ⟨n, rfl⟩ : ∃ k, n = k + 1 := ⟨n - 1, by omega⟩
    have hlist : pre ++ r :: todo ++ c :: post = pre ++ r :: (todo ++ c :: post) := by simp
    have hs' := hlist ▸ hs
    have hnext : rq.fifo.next r = (todo ++ [c]).head? := by
      rw [hs'.next_eq, List.head?_append, List.head?_append, List.head?_cons,
        List.head?_cons]
    obtain ⟨hr, hrs⟩ := hne r List.mem_cons_self
    rw [List.cons_append, List.head?_cons, ReassemblyQueue.kill, if_neg (hq r (by simp)),
      if_neg hr, if_neg hrs, hnext]
    have hs'' : rq.fifo.Spells (pre ++ [r] ++ todo ++ c :: post) := by simpa using hs
    exact ih hs'' (fun a ha => hq a (List.mem_cons_of_mem r ha))
      (fun a ha => hne a (List.mem_cons_of_mem r ha)) (Nat.lt_of_succ_lt_succ hn)

end Kill

section Merge

/-- A step that leaves the blocks and their links leaves the queue as it is. -/
theorem Stores.of_sameBlocks (h : rq.Stores as) (ht : rq'.Threaded as) (hs : SameBlocks rq rq')
    (htotal : rq'.total = rq.total) : rq'.Stores as := by
  refine ⟨ht, ?_, ?_⟩
  · rw [hs.startseq, hs.endseq]
    exact h.ordered
  · rw [htotal, h.total, hs.startseq, hs.endseq]

theorem SameBlocks.mergeLeft (hb : rq.startseq b ≤ sseq) :
    SameBlocks rq (rq.mergeLeft sseq tiflags b) where
  startseq := by
    change Function.update rq.startseq b (min sseq (rq.startseq b)) = _
    rw [min_eq_right hb, Function.update_eq_self]
  endseq := rfl
  rcvNxt := rfl

theorem SameBlocks.mergeRight (hb : eseq ≤ rq.endseq b) :
    SameBlocks rq (rq.mergeRight eseq tiflags b) where
  startseq := rfl
  endseq := by
    change Function.update rq.endseq b (max eseq (rq.endseq b)) = _
    rw [max_eq_right hb, Function.update_eq_self]
  rcvNxt := rfl

theorem Stores.mergeLeft (h : rq.Stores as) (hb : rq.startseq b ≤ sseq) :
    (rq.mergeLeft sseq tiflags b).Stores as :=
  h.of_sameBlocks ⟨h.threaded.linked, h.threaded.stacked⟩ (.mergeLeft hb) (if_neg hb.not_gt)

theorem Stores.mergeRight (h : rq.Stores as) (hb : eseq ≤ rq.endseq b) :
    (rq.mergeRight eseq tiflags b).Stores as :=
  h.of_sameBlocks ⟨h.threaded.linked, h.threaded.stacked⟩ (.mergeRight hb) (if_neg hb.not_gt)

theorem mergeLeft_total : (rq.mergeLeft sseq tiflags b).total =
    rq.total + (rq.startseq b - min sseq (rq.startseq b)) := by
  rw [ReassemblyQueue.mergeLeft]
  split_ifs with hlt
  · rw [min_eq_left hlt.le]
  · rw [min_eq_right (not_lt.mp hlt), sub_self, add_zero]

theorem mergeRight_total : (rq.mergeRight eseq tiflags b).total =
    rq.total + (max eseq (rq.endseq b) - rq.endseq b) := by
  rw [ReassemblyQueue.mergeRight]
  split_ifs with hlt
  · rw [max_eq_left hlt.le]
  · rw [max_eq_right (not_lt.mp hlt), sub_self, add_zero]

/-- The flags of the blocks once those that end from `sseq` on may have got `tiflags`. -/
def Flagged (rq : ReassemblyQueue) (sseq : TcpSeq) (tiflags : TcpFlag) (rq' : ReassemblyQueue) :
    Prop :=
  ∀ x i, (rq'.pflags x).getLsbD i = true →
    (rq.pflags x).getLsbD i = true ∨ tiflags.getLsbD i = true ∧ sseq ≤ rq.endseq x

theorem Flagged.of_pflags_eq (h : rq'.pflags = rq.pflags) : Flagged rq sseq tiflags rq' :=
  fun x i hi => .inl (by rwa [h] at hi)

theorem Flagged.update (h : Flagged rq sseq tiflags rq') {rq'' : ReassemblyQueue}
    (hp : rq''.pflags = Function.update rq'.pflags b (rq'.pflags b ||| tiflags))
    (hb : sseq ≤ rq.endseq b) : Flagged rq sseq tiflags rq'' := fun x i hi => by
  rw [hp] at hi
  by_cases hx : x = b
  · subst hx
    rw [Function.update_self, BitVec.getLsbD_or, Bool.or_eq_true] at hi
    exact hi.elim (h x i) fun hi => .inr ⟨hi, hb⟩
  · rw [Function.update_of_ne hx] at hi
    exact h x i hi

theorem Flagged.mergeLeft (hb : sseq ≤ rq.endseq b) :
    Flagged rq sseq tiflags (rq.mergeLeft sseq tiflags b) :=
  .update (.of_pflags_eq rfl) rfl hb

theorem Flagged.mergeRight (h : Flagged rq sseq tiflags rq') (hb : sseq ≤ rq.endseq b) :
    Flagged rq sseq tiflags (rq'.mergeRight eseq tiflags b) := h.update rfl hb

/-- A block that meets the new one is extended to cover it. -/
theorem Stores.extend (h : rq.Stores (pre ++ b :: post)) (tiflags : TcpFlag)
    (hs : sseq ≤ rq.endseq b)
    (he : rq.startseq b ≤ eseq) (hpre : ∀ x ∈ pre, rq.endseq x < min sseq (rq.startseq b))
    (hpost : ∀ y ∈ post, max eseq (rq.endseq b) < rq.startseq y) :
    ((rq.mergeLeft sseq tiflags b).mergeRight eseq tiflags b).Stores (pre ++ b :: post) ∧
      ((rq.mergeLeft sseq tiflags b).mergeRight eseq tiflags b).covered (pre ++ b :: post) =
        rq.covered (pre ++ b :: post) ∪ Set.Ico sseq eseq := by
  have hlist : pre ++ b :: post = pre ++ [b] ++ post := by simp
  have hb : b ∉ pre ++ post := (List.nodup_cons.mp (List.nodup_middle.mp h.threaded.nodup)).1
  have hle := h.ordered.le b (by simp)
  have hself : SameBounds rq rq (pre ++ post) := fun _ _ => ⟨rfl, rfl⟩
  have hlo : ((rq.mergeLeft sseq tiflags b).mergeRight eseq tiflags b).startseq b =
      min sseq (rq.startseq b) := Function.update_self ..
  have hhi : ((rq.mergeLeft sseq tiflags b).mergeRight eseq tiflags b).endseq b =
      max eseq (rq.endseq b) := Function.update_self ..
  have hcov : rq.covered (pre ++ b :: post) = rq.covered (pre ++ [b] ++ post) := by rw [hlist]
  rw [hcov]
  refine Stores.replace (hlist ▸ h) ⟨h.threaded.linked, h.threaded.stacked⟩
    (hself.of_update hb rfl rfl) ?_ (hlo ▸ hpre) (hhi ▸ hpost) ?_ ?_
  · rw [hlo, hhi]
    exact (min_le_right ..).trans (hle.trans (le_max_right ..))
  · rw [hlo, hhi, covered, cover_cons, cover_nil, Set.union_empty, Set.Ico_union_Ico' hs he,
      min_comm, max_comm]
  · rw [hlo, hhi, mergeRight_total, mergeLeft_total, extent_cons, extent_nil]
    change rq.total + (_ - _) + (max eseq (rq.endseq b) - rq.endseq b) = _
    abel

/-- Flags that go to blocks beside the new one have their origin in it, once they are joined. -/
theorem Stores.marks (h : rq'.Stores bs) (hf : Flagged rq sseq tiflags rq')
    (hc : Set.Ico sseq eseq ⊆ rq'.covered bs) (hse : sseq < eseq)
    (hends : ∀ b ∈ bs, rq.endseq b ≤ rq'.endseq b)
    (hempties : ∀ b ∈ bs, rq'.endseq b ≤ rq'.startseq b →
      rq.startseq b = rq'.startseq b ∧ rq.endseq b = rq'.endseq b) :
    Marks rq bs sseq eseq tiflags rq' tiflags bs := by
  refine ⟨fun b hb i hi => ?_, fun i hi => ?_, fun b hb he => ⟨hb, hempties b hb he⟩⟩
  · rcases hf b i hi with hi | ⟨hi, hs⟩
    · exact .inr ⟨b, hb, hi, hends b hb⟩
    · exact .inl ⟨hi, h.ordered.le_hi_of_Ico_subset hb (hs.trans (hends b hb)) hc⟩
  · obtain ⟨b, hb, hlo, hhi⟩ := hc ⟨le_rfl, hse⟩
    exact ⟨b, hb, hlo, .inl ⟨hi, h.ordered.le_hi_of_Ico_subset hb hhi.le hc⟩⟩

/-- Nothing is left to insert: `rcv_nxt_` is looked up in the first block. -/
theorem Stores.fill_nil (h : rq'.Stores bs)
    (hne : ∀ a ∈ as, rq.endseq a ≤ sseq → rq.startseq a < rq.endseq a) (hse : sseq < eseq)
    (hcov : rq'.covered bs = rq.covered as ∪ Set.Ico sseq eseq) (hnext : rq'.rcvNxt = rq.rcvNxt)
    (hm : Marks rq as sseq eseq tiflags rq' tiflags bs)
    (hes : e ≤ s) (needmerge : Bool) (p q : Option ℕ) :
    Gains rq as sseq eseq tiflags (rq'.fill s e tiflags rqflags initcnt needmerge p q) := by
  obtain ⟨c, hc, hclo, hchi⟩ : sseq ∈ rq'.covered bs := hcov ▸ .inr ⟨le_rfl, hse⟩
  obtain ⟨a, bs, rfl⟩ := List.exists_cons_of_ne_nil (List.ne_nil_of_mem hc)
  have hhead : rq'.fifo.head = some a := h.threaded.spells.head_eq
  have hlt : rq'.startseq a < rq'.endseq a := by
    by_contra hle
    rw [not_lt] at hle
    obtain ⟨ha, hs, he⟩ := hm.empties a List.mem_cons_self hle
    rcases List.mem_cons.mp hc with rfl | hc
    · exact hle.not_gt (hclo.trans_lt hchi)
    · have hac := (ordered_cons.mp h.ordered).2.1 c hc
      have hlt := hne a ha (he.le.trans (hac.le.trans hclo))
      rw [hs, he] at hlt
      exact hle.not_gt hlt
  rw [fill, if_pos hes, hhead]
  refine ⟨_, _, a :: bs, rfl, ⟨⟨h.threaded.linked, h.threaded.stacked⟩, h.ordered, h.total⟩,
    hcov, fun hr hrs => ?_, ?_, hm.kept, hm.given, hm.empties⟩
  · rw [advance, hnext]
    exact h.ordered.isLeast_head hlt hcov hr hrs
  · exact next_of_ite List.mem_cons_self (by rw [advance, hnext])

/-- The new one lies in a block that only has its flags changed. -/
theorem Stores.fill_covered (h : rq'.Stores as) (hsame : SameBlocks rq rq')
    (hf : Flagged rq sseq tiflags rq')
    (hpos : ∀ a ∈ as, rq.endseq a ≤ sseq → rq.startseq a < rq.endseq a) (hse : sseq < eseq)
    (hc : Set.Ico sseq eseq ⊆ rq.covered as) (hes : e ≤ s) (needmerge : Bool) (p q : Option ℕ) :
    Gains rq as sseq eseq tiflags (rq'.fill s e tiflags rqflags initcnt needmerge p q) := by
  refine h.fill_nil hpos hse ?_ hsame.rcvNxt (h.marks hf (hsame.covered_eq ▸ hc) hse
    (fun b _ => by rw [hsame.endseq]) fun b _ _ => by rw [hsame.startseq, hsame.endseq]; simp)
    hes needmerge p q
  rw [hsame.covered_eq, eq_comm, Set.union_eq_left]
  exact hc

theorem le_extended_endseq (x : ℕ) : rq.endseq x ≤
    ((rq.mergeLeft sseq tiflags b).mergeRight eseq tiflags b).endseq x := by
  change _ ≤ Function.update rq.endseq b (max eseq (rq.endseq b)) x
  by_cases hx : x = b
  · rw [hx, Function.update_self]
    exact le_max_right ..
  · rw [Function.update_of_ne hx]

/-- A block that is empty after `b` has been extended is another one. -/
theorem extended_empty {x : ℕ} (hse : sseq < eseq)
    (hx : ((rq.mergeLeft sseq tiflags b).mergeRight eseq tiflags b).endseq x ≤
      ((rq.mergeLeft sseq tiflags b).mergeRight eseq tiflags b).startseq x) :
    rq.startseq x = ((rq.mergeLeft sseq tiflags b).mergeRight eseq tiflags b).startseq x ∧
      rq.endseq x = ((rq.mergeLeft sseq tiflags b).mergeRight eseq tiflags b).endseq x := by
  change Function.update rq.endseq b (max eseq (rq.endseq b)) x ≤
    Function.update rq.startseq b (min sseq (rq.startseq b)) x at hx
  change rq.startseq x = Function.update rq.startseq b (min sseq (rq.startseq b)) x ∧
    rq.endseq x = Function.update rq.endseq b (max eseq (rq.endseq b)) x
  by_cases hxb : x = b
  · rw [hxb, Function.update_self, Function.update_self] at hx
    exact absurd ((le_max_left ..).trans (hx.trans (min_le_left ..))) hse.not_ge
  · rw [Function.update_of_ne hxb, Function.update_of_ne hxb]
    exact ⟨rfl, rfl⟩

theorem Inserted.gains {rq'' : ReassemblyQueue} {flags : TcpFlag}
    (hi : Inserted rq' bs s e tiflags rq'' flags todo)
    (hsame : SameBlocks rq rq') (hf : Flagged rq sseq tiflags rq') (hs : sseq ≤ s) (he : e ≤ eseq)
    (hleft : Set.Ico sseq s ⊆ rq.covered bs) (hright : Set.Ico e eseq ⊆ rq.covered bs) :
    Gains rq bs sseq eseq tiflags (.ok (rq'', flags)) := by
  have hc : rq''.covered todo = rq.covered bs ∪ Set.Ico s e := by
    rw [hi.covered, hsame.covered_eq]
  have hcov : rq''.covered todo = rq.covered bs ∪ Set.Ico sseq eseq :=
    hc.trans (union_Ico_eq hs he hleft hright)
  have hsub : rq.covered bs ⊆ rq''.covered todo := hcov ▸ Set.subset_union_left
  have hnew : Set.Ico sseq eseq ⊆ rq''.covered todo := hcov ▸ Set.subset_union_right
  have hord := hi.stores.ordered
  obtain ⟨a, ha, hmem, hnext⟩ := hi.next
  rw [hsame.rcvNxt] at hnext
  have horigin : ∀ b ∈ todo, ∀ i, Origin rq' bs e tiflags i (rq''.endseq b) →
      Origin rq bs eseq tiflags i (rq''.endseq b) := by
    rintro b hb i (⟨hi, heb⟩ | ⟨x, hx, hi, hxb⟩)
    · exact .inl ⟨hi, hord.le_hi_of_Ico_subset hb heb (hright.trans hsub)⟩
    · rw [hsame.endseq] at hxb
      rcases hf x i hi with hi | ⟨hi, hsx⟩
      · exact .inr ⟨x, hx, hi, hxb⟩
      · exact .inl ⟨hi, hord.le_hi_of_Ico_subset hb (hsx.trans hxb) hnew⟩
  refine ⟨rq'', flags, todo, rfl, hi.stores, hcov, fun hr hrs => ?_, next_of_ite ha hnext, ?_⟩
  · rw [hnext]
    exact hord.isLeast_of_mem ha hmem hc hr.1 (hrs.trans hs)
  · refine ⟨fun b hb i hb' => horigin b hb i (hi.marks.kept b hb i hb'), fun i hf => ?_,
      fun b hb hb' => ?_⟩
    · obtain ⟨b, hb, hbs, ho⟩ := hi.marks.given i hf
      exact ⟨b, hb, hord.lo_le_of_Ico_subset hb hbs (hleft.trans hsub), horigin b hb i ho⟩
    · obtain ⟨hb, hs, he⟩ := hi.marks.empties b hb hb'
      rw [hsame.startseq] at hs
      rw [hsame.endseq] at he
      exact ⟨hb, hs, he⟩

theorem leftBlock_eq (sseq : TcpSeq) (hs : rq.fifo.Spells (pre ++ b :: post)) :
    rq.leftBlock sseq pre.getLast? =
      .ok (if pre = [] ∨ rq.startseq b < sseq then some b else none) := by
  rcases List.eq_nil_or_concat pre with rfl | ⟨pre, p, rfl⟩
  · rw [if_pos (.inl rfl), List.getLast?_nil, leftBlock, hs.head_eq]
    rfl
  · rw [List.concat_eq_append] at hs ⊢
    rw [List.append_assoc, List.singleton_append] at hs
    rw [List.getLast?_concat, leftBlock, hs.next_eq]
    simp

theorem rightBlock_eq (eseq : TcpSeq) (hs : rq.fifo.Spells (pre ++ b :: post)) :
    rq.rightBlock eseq post.head? =
      .ok (if post = [] ∨ eseq < rq.endseq b then some b else none) := by
  cases post with
  | nil =>
    rw [if_pos (.inl rfl), List.head?_nil, rightBlock, hs.tail_eq, List.getLast?_concat]
  | cons q post =>
    have hlist : pre ++ b :: q :: post = (pre ++ [b]) ++ q :: post := by simp
    rw [hlist] at hs
    rw [List.head?_cons, rightBlock, hs.prev_eq, List.getLast?_concat]
    simp

theorem merge_of_none {p q : Option ℕ} (h : rq.leftBlock sseq p = .ok none) :
    rq.merge sseq eseq tiflags rqflags initcnt p q =
      rq.mergeFrom sseq eseq tiflags rqflags initcnt false p q := by
  rw [merge, h]
  rfl

theorem merge_of_some {p q : Option ℕ} (h : rq.leftBlock sseq p = .ok (some b)) :
    rq.merge sseq eseq tiflags rqflags initcnt p q =
      (rq.mergeLeft sseq tiflags b).mergeFrom (rq.endseq b) eseq tiflags rqflags (initcnt - 1)
        true (some b) q := by
  rw [merge, h]
  rfl

theorem mergeFrom_of_none {needmerge : Bool} {p q : Option ℕ}
    (h : rq.rightBlock eseq q = .ok none) :
    rq.mergeFrom sseq eseq tiflags rqflags initcnt needmerge p q =
      rq.fill sseq eseq tiflags rqflags initcnt needmerge p q := by
  rw [mergeFrom, h]
  rfl

theorem mergeFrom_of_some {needmerge : Bool} {p q : Option ℕ}
    (h : rq.rightBlock eseq q = .ok (some b)) :
    rq.mergeFrom sseq eseq tiflags rqflags initcnt needmerge p q =
      (rq.mergeRight eseq tiflags b).fill sseq (rq.startseq b) tiflags rqflags initcnt true p
        (some b) := by
  rw [mergeFrom, h]
  rfl

/-- What is left to insert fills a gap and touches a block beside it. -/
theorem Stores.fill_touching (h : rq'.Stores (pre ++ post)) (hsame : SameBlocks rq rq')
    (hf : Flagged rq sseq tiflags rq') (hse : s < e)
    (hpre : ∀ x ∈ pre, rq'.endseq x ≤ s) (hpost : ∀ y ∈ post, e ≤ rq'.startseq y)
    (hm : (∃ p ∈ pre.getLast?, rq'.endseq p = s) ∨ ∃ q ∈ post.head?, rq'.startseq q = e)
    (hs : sseq ≤ s) (he : e ≤ eseq) (hleft : Set.Ico sseq s ⊆ rq.covered (pre ++ post))
    (hright : Set.Ico e eseq ⊆ rq.covered (pre ++ post)) :
    Gains rq (pre ++ post) sseq eseq tiflags
      (rq'.fill s e tiflags rqflags initcnt true pre.getLast? post.head?) := by
  obtain ⟨rq'', flags, bs, hok, hi⟩ :=
    h.endfast true hse hpre hpost (iff_of_true rfl hm) tiflags rqflags initcnt
  rw [fill, if_neg hse.not_ge]
  change Gains _ _ _ _ _ (rq'.endfast s e tiflags rqflags initcnt true pre.getLast? post.head?)
  rw [hok]
  exact hi.gains hsame hf hs he hleft hright

theorem Inserted.gains_self {flags : TcpFlag} (hi : Inserted rq as sseq eseq tiflags rq' flags bs) :
    Gains rq as sseq eseq tiflags (.ok (rq', flags)) :=
  hi.gains ⟨rfl, rfl, rfl⟩ (.of_pflags_eq rfl) le_rfl le_rfl (by simp) (by simp)

section Split

variable (hpre : ∀ x ∈ pre, rq.endseq x ≤ sseq) (hpost : ∀ y ∈ post, eseq ≤ rq.startseq y)
include hpre hpost

/-- The new one lies between two blocks. -/
theorem Stores.merge_nil (h : rq.Stores (pre ++ post)) (hse : sseq < eseq) (hp : pre ≠ [])
    (hq : post ≠ []) :
    Gains rq (pre ++ post) sseq eseq tiflags
      (rq.merge sseq eseq tiflags rqflags initcnt pre.getLast? post.head?) := by
  rcases List.eq_nil_or_concat pre with rfl | ⟨pre, p, rfl⟩
  · exact absurd rfl hp
  obtain ⟨q, post, rfl⟩ := List.exists_cons_of_ne_nil hq
  rw [List.concat_eq_append] at *
  have hps := hpre p (by simp)
  have hqe := hpost q (by simp)
  have hspells := h.threaded.spells
  have hleft := leftBlock_eq sseq hspells
  have hlist : pre ++ [p] ++ q :: post = pre ++ p :: q :: post := by simp
  have hright := rightBlock_eq eseq (hlist ▸ hspells)
  rw [if_neg (by simpa using (hse.trans_le hqe).le)] at hleft
  rw [if_neg (by simpa using hps.trans hse.le)] at hright
  have hadj : rq.adjacent sseq eseq (some p) (some q) =
      .ok (decide (eseq ≤ rq.startseq q ∧ (rq.endseq p = sseq ∨ rq.startseq q = eseq))) :=
    if_pos ⟨(hlist ▸ hspells).next_eq, hps⟩
  have hm : decide (eseq ≤ rq.startseq q ∧ (rq.endseq p = sseq ∨ rq.startseq q = eseq)) = true ↔
      (∃ p' ∈ (pre ++ [p]).getLast?, rq.endseq p' = sseq) ∨
        ∃ q' ∈ (q :: post).head?, rq.startseq q' = eseq := by
    simp [hqe]
  obtain ⟨rq', flags, bs, he, hi⟩ := h.endfast _ hse hpre hpost hm tiflags rqflags initcnt
  rw [merge_of_none hleft, mergeFrom_of_none hright, fill, if_neg hse.not_ge, List.getLast?_concat,
    List.head?_cons]
  change Gains _ _ _ _ _ (rq.adjacent sseq eseq (some p) (some q) >>= _)
  rw [hadj]
  change Gains _ _ _ _ _ (rq.endfast sseq eseq tiflags rqflags initcnt _ (some p) (some q))
  rw [List.getLast?_concat, List.head?_cons] at he
  rw [he]
  exact hi.gains_self

/-- One block meets the new one and does not lie within it. -/
theorem Stores.merge_one (h : rq.Stores (pre ++ b :: post))
    (hpos : ∀ a ∈ pre ++ b :: post, rq.endseq a ≤ sseq → rq.startseq a < rq.endseq a)
    (hse : sseq < eseq) (hs : sseq < rq.endseq b)
    (he : rq.startseq b < eseq) (hout : rq.startseq b < sseq ∨ eseq < rq.endseq b) :
    Gains rq (pre ++ b :: post) sseq eseq tiflags
      (rq.merge sseq eseq tiflags rqflags initcnt pre.getLast? post.head?) := by
  have hspells := h.threaded.spells
  have hleft := leftBlock_eq sseq hspells
  have hright := rightBlock_eq eseq hspells
  have hright' : (rq.mergeLeft sseq tiflags b).rightBlock eseq post.head? =
      .ok (if post = [] ∨ eseq < rq.endseq b then some b else none) := rightBlock_eq eseq hspells
  obtain ⟨-, hsep, hlt⟩ := ordered_append.mp h.ordered
  obtain ⟨hle, hgt, -⟩ := ordered_cons.mp hsep
  have hlt : ∀ x ∈ pre, rq.endseq x < rq.startseq b := fun x hx => hlt x hx b List.mem_cons_self
  have hlist : pre ++ b :: post = pre ++ [b] ++ post := by simp
  have hmem : b ∈ pre ++ b :: post := by simp
  by_cases hL : pre = [] ∨ rq.startseq b < sseq <;> by_cases hR : post = [] ∨ eseq < rq.endseq b
  · -- The block takes in all of the new one.
    rw [if_pos hL] at hleft
    rw [if_pos hR] at hright'
    have hpre' : ∀ x ∈ pre, rq.endseq x < min sseq (rq.startseq b) := fun x hx => by
      rw [min_eq_right (hL.resolve_left (List.ne_nil_of_mem hx)).le]
      exact hlt x hx
    have hpost' : ∀ y ∈ post, max eseq (rq.endseq b) < rq.startseq y := fun y hy => by
      rw [max_eq_right (hR.resolve_left (List.ne_nil_of_mem hy)).le]
      exact hgt y hy
    obtain ⟨hh, hcov⟩ := h.extend tiflags hs.le he.le hpre' hpost'
    rw [merge_of_some hleft, mergeFrom_of_some hright']
    refine hh.fill_nil hpos hse hcov rfl (hh.marks ((Flagged.mergeLeft hs.le).mergeRight hs.le)
      (hcov ▸ Set.subset_union_right) hse (fun x _ => le_extended_endseq x)
      fun x _ => extended_empty hse) ?_ ..
    exact (Function.update_self ..).trans_le ((min_le_right ..).trans hle)
  · -- It takes in the left part. The rest goes up to the next block.
    rw [not_or, not_lt] at hR
    have hbs : rq.startseq b < sseq := hout.resolve_right hR.2.not_gt
    have hsame : SameBlocks rq (rq.mergeLeft sseq tiflags b) := .mergeLeft hbs.le
    rw [if_pos hL] at hleft
    rw [if_neg (not_or.mpr ⟨hR.1, hR.2.not_gt⟩)] at hright'
    rw [merge_of_some hleft, mergeFrom_of_none hright']
    rcases le_or_gt eseq (rq.endseq b) with heb | hbe
    · exact (h.mergeLeft hbs.le).fill_covered hsame (.mergeLeft hs.le) hpos hse
        (Ico_subset_cover hmem hbs.le heb) heb ..
    · have hp : (some b : Option ℕ) = (pre ++ [b]).getLast? := List.getLast?_concat.symm
      have hpre' : ∀ x ∈ pre ++ [b], rq.endseq x ≤ rq.endseq b :=
        List.forall_mem_append.mpr ⟨fun x hx => (hlt x hx).le.trans hle, by simp⟩
      rw [hp, hlist]
      exact (hlist ▸ h.mergeLeft hbs.le).fill_touching hsame (.mergeLeft hs.le) hbe hpre'
        (hsame.startseq ▸ hpost) (.inl ⟨b, by simp, rfl⟩) hs.le le_rfl
        (Ico_subset_cover (by simp) hbs.le le_rfl) (by simp)
  · -- It takes in the right part. The rest begins after the previous block.
    rw [not_or, not_lt] at hL
    have heb : eseq < rq.endseq b := hout.resolve_left hL.2.not_gt
    have hsame : SameBlocks rq (rq.mergeRight eseq tiflags b) := .mergeRight heb.le
    have hf : Flagged rq sseq tiflags (rq.mergeRight eseq tiflags b) :=
      .mergeRight (.of_pflags_eq rfl) hs.le
    rw [if_neg (not_or.mpr ⟨hL.1, hL.2.not_gt⟩)] at hleft
    rw [if_pos hR] at hright
    rw [merge_of_none hleft, mergeFrom_of_some hright]
    rcases le_or_gt (rq.startseq b) sseq with hbs | hsb
    · exact (h.mergeRight heb.le).fill_covered hsame hf hpos hse
        (Ico_subset_cover hmem hbs heb.le) hbs ..
    · have hq : (some b : Option ℕ) = (b :: post).head? := rfl
      have hpost' : ∀ y ∈ b :: post, rq.startseq b ≤ rq.startseq y :=
        List.forall_mem_cons.mpr ⟨le_rfl, fun y hy => hle.trans (hgt y hy).le⟩
      rw [hq]
      exact (h.mergeRight heb.le).fill_touching hsame hf hsb (hsame.endseq ▸ hpre) hpost'
        (.inr ⟨b, rfl, rfl⟩) le_rfl he.le (by simp) (Ico_subset_cover hmem le_rfl heb.le)
  · -- It would lie within the new one.
    rw [not_or, not_lt] at hL hR
    exact absurd hout (not_or.mpr ⟨hL.2.not_gt, hR.2.not_gt⟩)

omit hpre hpost in
/-- Two blocks meet the new one, and what is left is the gap between them. -/
theorem Stores.merge_two (h : rq.Stores (pre ++ a :: b :: post)) (ha : sseq < rq.endseq a)
    (hb : rq.startseq b < eseq) (has : rq.startseq a < sseq) (heb : eseq < rq.endseq b) :
    Gains rq (pre ++ a :: b :: post) sseq eseq tiflags
      (rq.merge sseq eseq tiflags rqflags initcnt pre.getLast? post.head?) := by
  have hlist : pre ++ a :: b :: post = pre ++ [a] ++ b :: post := by simp
  have hspells := h.threaded.spells
  have hleft := leftBlock_eq sseq hspells
  rw [if_pos (.inr has)] at hleft
  have hright : (rq.mergeLeft sseq tiflags a).rightBlock eseq post.head? = .ok (some b) := by
    have hs : (rq.mergeLeft sseq tiflags a).fifo.Spells (pre ++ [a] ++ b :: post) := hlist ▸ hspells
    have hr := rightBlock_eq eseq hs
    rwa [if_pos (.inr heb)] at hr
  have hsl : SameBlocks rq (rq.mergeLeft sseq tiflags a) := .mergeLeft has.le
  have hsame : SameBlocks rq ((rq.mergeLeft sseq tiflags a).mergeRight eseq tiflags b) :=
    hsl.trans (.mergeRight heb.le)
  have hh : ((rq.mergeLeft sseq tiflags a).mergeRight eseq tiflags b).Stores
      (pre ++ [a] ++ b :: post) := (hlist ▸ h.mergeLeft has.le).mergeRight heb.le
  obtain ⟨-, hsep, hlt⟩ := ordered_append.mp h.ordered
  obtain ⟨hna, hab, hsep⟩ := ordered_cons.mp hsep
  obtain ⟨hnb, hgt, -⟩ := ordered_cons.mp hsep
  have hgap : rq.endseq a < rq.startseq b := hab b List.mem_cons_self
  have hpre' : ∀ x ∈ pre ++ [a], rq.endseq x ≤ rq.endseq a :=
    List.forall_mem_append.mpr
      ⟨fun x hx => (hlt x hx a List.mem_cons_self).le.trans hna, by simp⟩
  have hpost' : ∀ y ∈ b :: post, rq.startseq b ≤ rq.startseq y :=
    List.forall_mem_cons.mpr ⟨le_rfl, fun y hy => hnb.trans (hgt y hy).le⟩
  have hp : (some a : Option ℕ) = (pre ++ [a]).getLast? := List.getLast?_concat.symm
  have hq : (some b : Option ℕ) = (b :: post).head? := rfl
  rw [merge_of_some hleft, mergeFrom_of_some hright, hp, hq, hsl.startseq, hlist]
  have hf : Flagged rq sseq tiflags ((rq.mergeLeft sseq tiflags a).mergeRight eseq tiflags b) :=
    (Flagged.mergeLeft ha.le).mergeRight (ha.trans (hgap.trans (hb.trans heb))).le
  refine hh.fill_touching hsame hf hgap (hsame.endseq ▸ hpre') (hsame.startseq ▸ hpost')
    (.inl ⟨a, by simp, congrFun hsame.endseq a⟩) ha.le hb.le
    (Ico_subset_cover (by simp) has.le le_rfl) (Ico_subset_cover (by simp) le_rfl heb.le)

/-- The blocks `mid` meet the new one, and none of them lies within it. -/
theorem Stores.merge (h : rq.Stores (pre ++ mid ++ post))
    (hpos : ∀ a ∈ pre ++ mid ++ post, rq.endseq a ≤ sseq → rq.startseq a < rq.endseq a)
    (hse : sseq < eseq)
    (hmid : ∀ a ∈ mid, sseq < rq.endseq a ∧ rq.startseq a < eseq)
    (hout : ∀ a ∈ mid, rq.startseq a < sseq ∨ eseq < rq.endseq a)
    (hnil : mid = [] → pre ≠ [] ∧ post ≠ []) :
    Gains rq (pre ++ mid ++ post) sseq eseq tiflags
      (rq.merge sseq eseq tiflags rqflags initcnt pre.getLast? post.head?) := by
  obtain ⟨hsep, -, -⟩ := ordered_append.mp h.ordered
  obtain ⟨-, hsep, -⟩ := ordered_append.mp hsep
  rcases hsep.overhang hmid hout with rfl | ⟨b, rfl⟩ | ⟨a, b, rfl, has, heb⟩
  · rw [List.append_nil] at h ⊢
    exact h.merge_nil hpre hpost hse (hnil rfl).1 (hnil rfl).2
  · rw [List.append_assoc, List.singleton_append] at h hpos ⊢
    have hb := hmid b (by simp)
    exact h.merge_one hpre hpost hpos hse hb.1 hb.2 (hout b (by simp))
  · have hlist : pre ++ [a, b] ++ post = pre ++ a :: b :: post := by simp
    rw [hlist] at h ⊢
    exact h.merge_two (hmid a (by simp)).1 (hmid b (by simp)).2 has heb

end Split

end Merge

section Pass

/-- Blocks that lie within the new one make no difference to what it covers, and their flags
have been taken over. -/
theorem Gains.of_inside {tiflags' : TcpFlag}
    {result : Except RqError (ReassemblyQueue × TcpFlag)}
    (h : Gains rq' bs sseq eseq tiflags' result) (hsame : SameBlocks rq rq')
    (hpf : rq'.pflags = rq.pflags) (hsub : bs ⊆ as)
    (hin : ∀ a ∈ as, a ∈ bs ∨ rq.inside sseq eseq a = true)
    (hflags : ∀ i, tiflags'.getLsbD i = true → tiflags.getLsbD i = true ∨
      ∃ a ∈ as, rq.inside sseq eseq a = true ∧ (rq.pflags a).getLsbD i = true) :
    Gains rq as sseq eseq tiflags result := by
  obtain ⟨rq'', flags, bs', rfl, hg⟩ := h
  have hcov := hg.covered
  have hleast := hg.least
  have hnext := hg.next
  have hsubset : rq.covered bs ⊆ rq.covered as := fun x ⟨a, ha, hx⟩ => ⟨a, hsub ha, hx⟩
  have hback : ∀ x ∈ rq.covered as, x ∈ rq.covered bs ∨ x ∈ Set.Ico sseq eseq := by
    rintro x ⟨a, ha, hx⟩
    rcases hin a ha with hb | hi
    · exact .inl ⟨a, hb, hx⟩
    · have hi := of_decide_eq_true hi
      exact .inr ⟨hi.1.trans hx.1, hx.2.trans_le hi.2⟩
  have horigin : ∀ {i e}, Origin rq' bs eseq tiflags' i e → Origin rq as eseq tiflags i e := by
    rintro i e (⟨hi, he⟩ | ⟨a, ha, hi, he⟩)
    · rcases hflags i hi with hi | ⟨a, ha, hin, hi⟩
      · exact .inl ⟨hi, he⟩
      · exact .inr ⟨a, ha, hi, (of_decide_eq_true hin).2.trans he⟩
    · rw [hpf] at hi
      rw [hsame.endseq] at he
      exact .inr ⟨a, hsub ha, hi, he⟩
  rw [hsame.covered_eq] at hcov hleast
  rw [hsame.rcvNxt] at hleast hnext
  refine ⟨rq'', flags, bs', rfl, hg.stores, ?_, fun hr hrs => hleast (hr.subset hsubset ?_) hrs,
    hnext, ?_⟩
  · rw [hcov]
    refine subset_antisymm (Set.union_subset_union_left _ hsubset) ?_
    rintro x (hx | hx)
    · exact hback x hx
    · exact .inr hx
  · rintro x hx hxr
    exact (hback x hx).resolve_right fun hm => (hrs.trans hm.1).not_gt hxr
  · refine ⟨fun b hb i hi => horigin (hg.marks.kept b hb i hi), fun i hi => ?_, fun b hb he => ?_⟩
    · obtain ⟨b, hb, hs, ho⟩ := hg.marks.given i hi
      exact ⟨b, hb, hs, horigin ho⟩
    · obtain ⟨hb, hs, he⟩ := hg.marks.empties b hb he
      rw [hsame.startseq] at hs
      rw [hsame.endseq] at he
      exact ⟨hsub hb, hs, he⟩

variable (hse : sseq < eseq) (hpre : ∀ x ∈ pre, rq.endseq x ≤ sseq)
  (hmid : ∀ a ∈ mid, sseq < rq.endseq a ∧ rq.startseq a < eseq)
  (hpost : ∀ y ∈ post, eseq ≤ rq.startseq y)

/-- The search from the head stops at the first block that does not begin before `eseq`. -/
theorem Threaded.seek_next (h : rq.Threaded (pre ++ post)) (hpre : ∀ a ∈ pre, rq.startseq a < eseq)
    (hpost : ∀ a ∈ post.head?, ¬ rq.startseq a < eseq) :
    Ns2XPass.seek rq.fifo.next (fun b => rq.startseq b < eseq) (rq.brk + 1) rq.fifo.head =
      some post.head? := by
  have hlen := h.length_le
  rw [List.length_append] at hlen
  exact h.spells.forward.seek_eq hpre hpost (by omega)

/-- The search from the tail stops at the last block that does not end after `sseq`. -/
theorem Threaded.seek_prev (h : rq.Threaded (pre ++ post)) (hpost : ∀ a ∈ post, sseq < rq.endseq a)
    (hpre : ∀ a ∈ pre.getLast?, ¬ sseq < rq.endseq a) :
    Ns2XPass.seek rq.fifo.prev (fun b => sseq < rq.endseq b) (rq.brk + 1) rq.fifo.tail =
      some pre.getLast? := by
  have hlen := h.length_le
  have hb := h.spells.backward
  rw [List.length_append] at hlen
  rw [List.reverse_append] at hb
  rw [← List.head?_reverse]
  exact hb.seek_eq (fun a ha => hpost a (List.mem_reverse.mp ha))
    (fun a ha => hpre a (by rwa [List.head?_reverse] at ha)) (by rw [List.length_reverse]; omega)

include hse hpre hmid hpost in
/-- The search from the head finds the first block after the new one, and the search from the
tail the last block before it. -/
theorem Threaded.seek (h : rq.Threaded (pre ++ mid ++ post))
    (hord : Ordered rq.startseq rq.endseq (pre ++ mid ++ post)) :
    seek rq.fifo.next (fun b => rq.startseq b < eseq) (rq.brk + 1) rq.fifo.head =
        some post.head? ∧
      seek rq.fifo.prev (fun b => sseq < rq.endseq b) (rq.brk + 1) rq.fifo.tail =
        some pre.getLast? := by
  constructor
  · refine h.seek_next (List.forall_mem_append.mpr ⟨fun a ha => ?_, fun a ha => (hmid a ha).2⟩)
      fun a ha => (hpost a (List.mem_of_mem_head? ha)).not_gt
    exact (hord.le a (by simp [ha])).trans_lt ((hpre a ha).trans_lt hse)
  · rw [List.append_assoc] at h
    refine h.seek_prev (List.forall_mem_append.mpr ⟨fun a ha => (hmid a ha).1, fun a ha => ?_⟩)
      fun a ha => (hpre a (List.mem_of_getLast? ha)).not_gt
    exact hse.trans_le ((hpost a ha).trans (hord.le a (by simp [ha])))

include hse in
/-- A block that ends before the new one is neither the new one nor within it. -/
theorem not_inside_of_endseq_le (ha : rq.startseq a < rq.endseq a) (hs : rq.endseq a ≤ sseq) :
    ¬ (sseq = rq.startseq a ∧ eseq = rq.endseq a) ∧ rq.inside sseq eseq a = false :=
  ⟨fun hx => (hse.trans_eq hx.2).not_ge hs,
    decide_eq_false fun hx => (hx.1.trans_lt ha).not_ge hs⟩

include hse hpre in
/-- The loop from the last block before the new one on, or from the head, if no block is exactly
the new one. -/
theorem Stores.scan (h : rq.Stores (pre ++ mid ++ post))
    (hpos : ∀ a ∈ pre, rq.startseq a < rq.endseq a) (tiflags : TcpFlag) (initcnt : ℤ)
    (hne : ∀ a ∈ mid, ¬ (sseq = rq.startseq a ∧ eseq = rq.endseq a)) :
    ∃ rq' tiflags' initcnt',
      ReassemblyQueue.kill sseq eseq post.head? (rq.brk + 1) rq tiflags initcnt false
          (pre.getLast? <|> (pre ++ mid ++ post).head?) =
        .ok (.done rq' tiflags' initcnt' (mid.any (rq.inside sseq eseq))) ∧
      rq'.Stores (pre ++ mid.filter (fun a => !rq.inside sseq eseq a) ++ post) ∧
      SameBlocks rq rq' ∧ rq'.pflags = rq.pflags ∧
      ∀ i, tiflags'.getLsbD i = true → tiflags.getLsbD i = true ∨
        ∃ a ∈ mid, rq.inside sseq eseq a = true ∧ (rq.pflags a).getLsbD i = true := by
  have hlen := h.threaded.length_le
  rw [List.length_append, List.length_append] at hlen
  rcases List.eq_nil_or_concat pre with rfl | ⟨pre, p, rfl⟩
  · have h' : rq.Stores ([] ++ mid ++ post) := h
    exact h'.kill tiflags initcnt false hne (by omega)
  · rw [List.concat_eq_append] at h hlen hpre hpos ⊢
    have hlist : pre ++ [p] ++ mid ++ post = pre ++ p :: mid ++ post := by simp
    obtain ⟨hnp, hip⟩ := not_inside_of_endseq_le hse (hpos p (by simp)) (hpre p (by simp))
    obtain ⟨rq', tiflags', initcnt', he, hh, hsame, hpf, hflags⟩ :=
      (hlist ▸ h).kill tiflags initcnt false (n := rq.brk + 1) (List.forall_mem_cons.mpr ⟨hnp, hne⟩)
      (by rw [List.length_append] at hlen; simp only [List.length_cons] at hlen ⊢; omega)
    rw [List.filter_cons_of_pos (by simp [hip])] at hh
    rw [List.any_cons, hip, Bool.false_or, Bool.false_or] at he
    refine ⟨rq', tiflags', initcnt', ?_, by simpa using hh, hsame, hpf, fun i hi => ?_⟩
    · rw [← he, List.getLast?_concat]
      rfl
    · refine (hflags i hi).imp_right fun ⟨a, ha, hia, hi⟩ => ?_
      rcases List.mem_cons.mp ha with rfl | ha
      · rw [hip] at hia
        exact absurd hia Bool.false_ne_true
      · exact ⟨a, ha, hia, hi⟩

/-- The loop when a block is exactly the new one and those before it are not within it. -/
theorem Threaded.scan_exact {c : ℕ} (h : rq.Threaded (pre ++ (mid ++ c :: todo) ++ post))
    (hout : ∀ a ∈ pre ++ mid, ¬ (sseq = rq.startseq a ∧ eseq = rq.endseq a) ∧
      rq.inside sseq eseq a = false)
    (hc : sseq = rq.startseq c ∧ eseq = rq.endseq c) (tiflags : TcpFlag) (initcnt : ℤ) :
    ReassemblyQueue.kill sseq eseq post.head? (rq.brk + 1) rq tiflags initcnt false
        (pre.getLast? <|> (pre ++ (mid ++ c :: todo) ++ post).head?) =
      .ok (.exact { rq with pflags := Function.update rq.pflags c (rq.pflags c ||| tiflags) }
        (rq.pflags c ||| tiflags)) := by
  have hlen := h.length_le
  simp only [List.length_append, List.length_cons] at hlen
  have hq : ∀ a ∈ pre ++ mid ++ [c], post.head? ≠ some a := fun a ha =>
    head?_ne_some h.nodup <| by
      simp only [List.mem_append, List.mem_cons, List.not_mem_nil, or_false] at ha ⊢
      tauto
  have hout' : ∀ a ∈ pre ++ mid, ¬ (sseq = rq.startseq a ∧ eseq = rq.endseq a) ∧
      ¬ (sseq ≤ rq.startseq a ∧ rq.endseq a ≤ eseq) :=
    fun a ha => ⟨(hout a ha).1, of_decide_eq_false (hout a ha).2⟩
  have hspells : rq.fifo.Spells (pre ++ mid ++ c :: (todo ++ post)) := by
    simpa using h.spells
  rcases List.eq_nil_or_concat pre with rfl | ⟨pre, p, rfl⟩
  · rw [← kill_exact mid hspells hq hout' hc (n := rq.brk + 1) (by omega) false]
    congr 1
    cases mid <;> rfl
  · rw [List.concat_eq_append] at *
    have hlist : pre ++ [p] ++ mid = pre ++ p :: mid := by simp
    rw [hlist] at hspells hq hout'
    rw [List.length_append] at hlen
    rw [← kill_exact (p :: mid) hspells
      (fun a ha => hq a (by rw [List.append_assoc]; exact List.mem_append_right pre ha))
      (fun a ha => hout' a (List.mem_append_right pre ha)) hc (n := rq.brk + 1)
      (by simp only [List.length_cons] at hlen ⊢; omega) false, List.getLast?_concat]
    rfl

include hse hpre in
/-- The loop when a block is exactly the new one. -/
theorem Stores.scan_exact {c : ℕ} (h : rq.Stores (pre ++ (mid ++ c :: todo) ++ post))
    (hpos : ∀ a ∈ pre, rq.startseq a < rq.endseq a)
    (tiflags : TcpFlag) (initcnt : ℤ) (hc : sseq = rq.startseq c ∧ eseq = rq.endseq c)
    (hmid : ∀ a ∈ mid, ¬ (sseq = rq.startseq a ∧ eseq = rq.endseq a) ∧
      rq.inside sseq eseq a = false) :
    ∃ rq' flags,
      ReassemblyQueue.kill sseq eseq post.head? (rq.brk + 1) rq tiflags initcnt false
          (pre.getLast? <|> (pre ++ (mid ++ c :: todo) ++ post).head?) = .ok (.exact rq' flags) ∧
      rq'.Stores (pre ++ (mid ++ c :: todo) ++ post) ∧ SameBlocks rq rq' ∧
      flags = rq.pflags c ||| tiflags ∧
      rq'.pflags = Function.update rq.pflags c (rq.pflags c ||| tiflags) := by
  have hout : ∀ a ∈ pre ++ mid, ¬ (sseq = rq.startseq a ∧ eseq = rq.endseq a) ∧
      rq.inside sseq eseq a = false := List.forall_mem_append.mpr
    ⟨fun a ha => not_inside_of_endseq_le hse (hpos a ha) (hpre a ha), hmid⟩
  exact ⟨_, _, h.threaded.scan_exact hout hc tiflags initcnt,
    ⟨⟨h.threaded.linked, h.threaded.stacked⟩, h.ordered, h.total⟩, ⟨rfl, rfl, rfl⟩, rfl, rfl⟩

include hse in
/-- The new one comes after all blocks. -/
theorem Stores.add_tail (h : rq.Stores as) (ha : as.getLast? = some a) (hs : rq.endseq a ≤ sseq) :
    Gains rq as sseq eseq tiflags (rq.endfast sseq eseq tiflags rqflags initcnt (sseq = rq.endseq a)
      (some a) none) := by
  have hall : ∀ x ∈ as, rq.endseq x ≤ sseq := by
    obtain ⟨as, rfl⟩ := List.getLast?_eq_some_iff.mp ha
    obtain ⟨-, ha, hlt⟩ := ordered_append.mp h.ordered
    refine List.forall_mem_append.mpr ⟨fun x hx => ?_, by simpa using hs⟩
    exact (hlt x hx a (by simp)).le.trans ((ha.le a (by simp)).trans hs)
  have hlist : as = as ++ [] := by simp
  obtain ⟨rq', flags, bs, hok, hi⟩ := (hlist ▸ h).endfast (sseq = rq.endseq a) hse hall
    (by simp) (by simp [ha, eq_comm]) tiflags rqflags initcnt
  rw [ha, List.head?_nil] at hok
  rw [hok]
  rw [List.append_nil] at hi
  exact hi.gains_self

include hse in
/-- The new one comes before all blocks. -/
theorem Stores.add_head (h : rq.Stores (a :: as)) (he : eseq ≤ rq.startseq a) :
    Gains rq (a :: as) sseq eseq tiflags (rq.endfast sseq eseq tiflags rqflags initcnt
      (eseq = rq.startseq a) none (some a)) := by
  obtain ⟨hne, hlt, -⟩ := ordered_cons.mp h.ordered
  have hall : ∀ x ∈ a :: as, eseq ≤ rq.startseq x :=
    List.forall_mem_cons.mpr ⟨he, fun x hx => he.trans (hne.trans (hlt x hx).le)⟩
  have h' : rq.Stores ([] ++ a :: as) := h
  obtain ⟨rq', flags, bs, hok, hi⟩ := h'.endfast (eseq = rq.startseq a) hse
    (by simp) hall (by simp [eq_comm]) tiflags rqflags initcnt
  rw [List.getLast?_nil, List.head?_cons] at hok
  rw [hok]
  exact hi.gains_self

include hse in
theorem Stores.add_empty (h : rq.Stores []) :
    Gains rq [] sseq eseq tiflags (rq.endfast sseq eseq tiflags rqflags initcnt false none none) := by
  have h' : rq.Stores ([] ++ []) := h
  obtain ⟨rq', flags, bs, hok, hi⟩ := h'.endfast false hse
    (by simp) (by simp) (by simp) tiflags rqflags initcnt
  rw [List.getLast?_nil, List.head?_nil] at hok
  rw [hok]
  exact hi.gains_self

/-- A block that is exactly the new one covers it already. -/
theorem Stores.gains_of_mem (h : rq'.Stores as) (hsame : SameBlocks rq rq') (ha : a ∈ as)
    (hse : sseq < eseq) (hs : sseq = rq.startseq a ∧ eseq = rq.endseq a)
    (hp : rq'.pflags = Function.update rq.pflags a (rq.pflags a ||| tiflags)) :
    Gains rq as sseq eseq tiflags (.ok (rq', rq.pflags a ||| tiflags)) := by
  have hsub : Set.Ico sseq eseq ⊆ rq'.covered as := by
    rw [hsame.covered_eq]
    exact Ico_subset_cover ha hs.1.ge hs.2.le
  have hcov : rq'.covered as = rq.covered as ∪ Set.Ico sseq eseq := by
    rw [hsame.covered_eq, eq_comm, Set.union_eq_left, ← hsame.covered_eq]
    exact hsub
  have hf : Flagged rq sseq tiflags rq' :=
    .update (.of_pflags_eq rfl) hp (hse.le.trans_eq hs.2)
  have hm := h.marks hf hsub hse (fun b _ => by rw [hsame.endseq])
    fun b _ _ => by rw [hsame.startseq, hsame.endseq]; simp
  refine ⟨rq', _, as, rfl, h, hcov, fun hr _ => ?_, .inl hsame.rcvNxt, hm.kept, fun i hi => ?_,
    hm.empties⟩
  · rw [hsame.rcvNxt, hsame.covered_eq]
    exact isLeast_self hr.1
  · refine ⟨a, ha, ?_, ?_⟩
    · rw [hsame.startseq, hs.1]
    · rw [hsame.endseq, ← hs.2]
      exact .of_or ha hs.2.ge le_rfl hi

/-- The block meets the new one and lies within it: it gives way. -/
def GivesWay (rq : ReassemblyQueue) (sseq eseq : TcpSeq) (a : ℕ) : Prop :=
  (sseq < rq.endseq a ∧ rq.startseq a < eseq) ∧ rq.inside sseq eseq a = true

/-- One pass of `add`, where `hrec` says what the next one does. -/
theorem Stores.again2_step (h : rq.Stores as)
    (hpos : ∀ a ∈ as, rq.endseq a ≤ sseq → rq.startseq a < rq.endseq a) (has : as ≠ [])
    (hse : sseq < eseq) (tiflags : TcpFlag) (initcnt : ℤ)
    (hrec : (∃ a ∈ as, rq.GivesWay sseq eseq a) → ∀ {rq' bs} tiflags initcnt, rq'.Stores bs →
      (∀ a ∈ bs, rq'.endseq a ≤ sseq → rq'.startseq a < rq'.endseq a) → bs ≠ [] →
      (∀ a ∈ bs, ¬ rq'.GivesWay sseq eseq a) →
      Gains rq' bs sseq eseq tiflags (again2 sseq eseq rqflags n rq' tiflags initcnt)) :
    Gains rq as sseq eseq tiflags (again2 sseq eseq rqflags (n + 1) rq tiflags initcnt) := by
  obtain ⟨hd, as', hcons⟩ := List.exists_cons_of_ne_nil has
  obtain ⟨tl, htl⟩ := Option.ne_none_iff_exists'.mp (mt List.getLast?_eq_none_iff.mp has)
  have hhead : rq.fifo.head = some hd := by rw [h.threaded.spells.head_eq, hcons, List.head?_cons]
  have htail : rq.fifo.tail = some tl := h.threaded.spells.tail_eq.trans htl
  rw [again2, hhead, htail]
  dsimp only
  split_ifs with htl' hhd'
  · exact h.add_tail hse htl htl'
  · subst hcons
    exact h.add_head hse hhd'
  · obtain ⟨pre, mid, post, rfl, hpre, hmid, hpost⟩ := h.ordered.exists_split sseq eseq
    have hseek := h.threaded.seek hse hpre hmid hpost h.ordered
    rw [hhead, htail] at hseek
    rw [hseek.1, hseek.2]
    have hppos : ∀ a ∈ pre, rq.startseq a < rq.endseq a := fun a ha =>
      hpos a (by simp [ha]) (hpre a ha)
    have hstart : some hd = (pre ++ mid ++ post).head? := by rw [hcons, List.head?_cons]
    by_cases hex : ∃ c ∈ mid, sseq = rq.startseq c ∧ eseq = rq.endseq c
    · obtain ⟨c, hc, hx⟩ := hex
      obtain ⟨xs, ys, rfl⟩ := List.append_of_mem hc
      obtain ⟨hsep, -, -⟩ := ordered_append.mp h.ordered
      obtain ⟨-, hsep, -⟩ := ordered_append.mp hsep
      have hxs : ∀ a ∈ xs, False := fun a ha => by
        have hlt := (ordered_append.mp hsep).2.2 a ha c List.mem_cons_self
        exact lt_asymm (hlt.trans_eq hx.1.symm) (hmid a (by simp [ha])).1
      obtain ⟨rq', flags, hk, hh, hsame, rfl, hpf⟩ := h.scan_exact hse hpre hppos tiflags initcnt hx
        fun a ha => (hxs a ha).elim
      rw [← hstart] at hk
      dsimp only
      rw [hk]
      exact hh.gains_of_mem hsame (by simp) hse hx hpf
    · push Not at hex
      obtain ⟨rq', tiflags', initcnt, hk, hh, hsame, hpf, hflags⟩ :=
        h.scan hse hpre hppos tiflags initcnt fun a ha hx => hex a ha hx.1 hx.2
      have hflags : ∀ i, tiflags'.getLsbD i = true → tiflags.getLsbD i = true ∨
          ∃ a ∈ pre ++ mid ++ post, rq.inside sseq eseq a = true ∧ (rq.pflags a).getLsbD i = true :=
        fun i hi => (hflags i hi).imp_right fun ⟨a, ha, hin, hi⟩ => ⟨a, by simp [ha], hin, hi⟩
      rw [← hstart] at hk
      dsimp only
      rw [hk]
      change Gains _ _ _ _ _ (if rq'.empty = true then _ else if _ = true then _ else _)
      have hinside : ∀ a, rq'.inside sseq eseq a = rq.inside sseq eseq a := fun a => by
        rw [inside, hsame.startseq, hsame.endseq, inside]
      split_ifs with hempty halt
      · have hnil := List.head?_eq_none_iff.mp
          (hh.threaded.spells.head_eq.symm.trans (Option.isNone_iff_eq_none.mp hempty))
        rw [hnil] at hh
        simp only [List.append_eq_nil_iff] at hnil
        obtain ⟨⟨rfl, hfilter⟩, rfl⟩ := hnil
        refine (hh.add_empty hse).of_inside hsame hpf (List.nil_subset _) (fun a ha => .inr ?_)
          hflags
        simpa using List.filter_eq_nil_iff.mp hfilter a (by simpa using ha)
      · have hbs : pre ++ mid.filter (fun a => !rq.inside sseq eseq a) ++ post ≠ [] := fun hnil => by
          rw [hnil] at hh
          exact hempty (Option.isNone_iff_eq_none.mpr hh.threaded.spells.head_eq)
        have hsub : pre ++ mid.filter (fun a => !rq.inside sseq eseq a) ++ post ⊆
            pre ++ mid ++ post := ((List.filter_sublist.append_left pre).append_right post).subset
        have hpos' : ∀ a ∈ pre ++ mid.filter (fun a => !rq.inside sseq eseq a) ++ post,
            rq'.endseq a ≤ sseq → rq'.startseq a < rq'.endseq a := fun a ha hs => by
          rw [hsame.startseq, hsame.endseq] at *
          exact hpos a (hsub ha) hs
        obtain ⟨a, ha, hin⟩ := List.any_eq_true.mp halt
        refine (hrec ⟨a, by simp [ha], hmid a ha, hin⟩ tiflags' initcnt hh hpos' hbs
          fun b hb => ?_).of_inside hsame hpf hsub (fun b hb => ?_) hflags
        · rintro ⟨⟨hs, he⟩, hin⟩
          rw [hsame.endseq] at hs
          rw [hsame.startseq] at he
          rw [hinside] at hin
          rcases List.mem_append.mp hb with hb | hb
          · rcases List.mem_append.mp hb with hb | hb
            · exact hs.not_ge (hpre b hb)
            · simp [hin] at hb
          · exact he.not_ge (hpost b hb)
        · cases hin : rq.inside sseq eseq b with
          | true => exact .inr rfl
          | false =>
            simp only [List.mem_append, List.mem_filter, hin] at hb ⊢
            tauto
      · have hout : ∀ a ∈ mid, rq.inside sseq eseq a = false := by simpa using halt
        have hfilter : mid.filter (fun a => !rq.inside sseq eseq a) = mid :=
          List.filter_eq_self.mpr fun a ha => by simp [hout a ha]
        rw [hfilter] at hh
        have hpos' : ∀ a ∈ pre ++ mid ++ post,
            rq'.endseq a ≤ sseq → rq'.startseq a < rq'.endseq a := by
          rw [hsame.startseq, hsame.endseq]
          exact hpos
        refine (hh.merge (hsame.endseq ▸ hpre) (hsame.startseq ▸ hpost) hpos' hse
          (hsame.startseq ▸ hsame.endseq ▸ hmid) (fun a ha => ?_) fun hnil => ⟨?_, ?_⟩).of_inside hsame
          hpf (List.Subset.refl _) (fun a ha => .inl ha) hflags
        · have hin := of_decide_eq_false (hout a ha)
          rw [hsame.startseq, hsame.endseq]
          by_contra hno
          rw [not_or, not_lt, not_lt] at hno
          exact hin hno
        · rintro rfl
          have hm : hd ∈ [] ++ mid ++ post := hcons ▸ List.mem_cons_self
          rw [hnil] at hm
          exact hhd' (hpost hd (by simpa using hm))
        · rintro rfl
          rw [hnil] at htl
          exact htl' (hpre tl (by simpa using List.mem_of_getLast? htl))

/-- Two passes are enough: the second one deletes nothing. -/
theorem Stores.again2 (h : rq.Stores as)
    (hpos : ∀ a ∈ as, rq.endseq a ≤ sseq → rq.startseq a < rq.endseq a) (has : as ≠ [])
    (hse : sseq < eseq) (tiflags : TcpFlag) (initcnt : ℤ) :
    Gains rq as sseq eseq tiflags (again2 sseq eseq rqflags (n + 2) rq tiflags initcnt) := by
  refine h.again2_step hpos has hse tiflags initcnt
    fun _ rq' bs tiflags initcnt hh hpos hbs hout => ?_
  exact hh.again2_step hpos hbs hse tiflags initcnt fun ⟨a, ha, hin⟩ => absurd hin (hout a ha)

end Pass

/-- The first block of all is inserted like any other. -/
theorem add_of_empty (hse : sseq < eseq) (hf : rq.fifo.head = none) (hl : rq.lifo.head = none)
    (ht : rq.total = 0) :
    rq.add sseq eseq tiflags rqflags = rq.endfast sseq eseq tiflags rqflags 1 false none none := by
  rw [ReassemblyQueue.add, if_neg hse.not_gt, hf, hl, ReassemblyQueue.endfast, newBlock, newseginfo]
  cases rq.freelist <;> simp [push, hl, ht]

/-- `add` of a range that is not empty succeeds if no block is empty that ends before it. -/
theorem Stores.add (h : rq.Stores as)
    (hpos : ∀ a ∈ as, rq.endseq a ≤ sseq → rq.startseq a < rq.endseq a) (hse : sseq < eseq)
    (tiflags : TcpFlag) (rqflags : RqFlag) :
    Gains rq as sseq eseq tiflags (rq.add sseq eseq tiflags rqflags) := by
  have hhead := h.threaded.spells.head_eq
  cases as with
  | nil =>
    obtain ⟨stack, hstack, hperm⟩ := h.threaded.stacked
    obtain rfl := hperm.eq_nil
    rw [add_of_empty hse hhead hstack.head_eq h.total]
    exact h.add_empty hse
  | cons a as =>
    rw [ReassemblyQueue.add, if_neg hse.not_gt, hhead]
    exact h.again2 hpos (List.cons_ne_nil a as) hse tiflags 1

/-- A queue without empty blocks stays one. -/
theorem Holds.gained (h : rq.Holds as) (hse : sseq < eseq) (tiflags : TcpFlag)
    (rqflags : RqFlag) :
    ∃ rq' flags bs, rq.add sseq eseq tiflags rqflags = .ok (rq', flags) ∧ rq'.Holds bs ∧
      Gained rq as sseq eseq tiflags rq' flags bs := by
  obtain ⟨rq', flags, bs, hok, hg⟩ :=
    h.stores.add (fun a ha _ => h.separated.nonempty a ha) hse tiflags rqflags
  refine ⟨rq', flags, bs, hok, hg.stores.holds fun b hb => ?_, hg⟩
  by_contra hle
  obtain ⟨hb, hs, he⟩ := hg.marks.empties b hb (not_lt.mp hle)
  rw [← hs, ← he] at hle
  exact hle (h.separated.nonempty b hb)

/-- `add` of a range that is not empty succeeds. -/
theorem Holds.add (h : rq.Holds as) (hse : sseq < eseq) (tiflags : TcpFlag) (rqflags : RqFlag) :
    Adds rq as sseq eseq (rq.add sseq eseq tiflags rqflags) := by
  obtain ⟨rq', flags, bs, hok, hh, hg⟩ := h.gained hse tiflags rqflags
  exact ⟨rq', flags, bs, hok, hh, hg.covered, hg.least⟩

end ReassemblyQueue

end Ns2XPass
