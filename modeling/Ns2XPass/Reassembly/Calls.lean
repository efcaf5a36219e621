import Ns2XPass.Reassembly.Passes
import Ns2XPass.Reassembly.Runs

/-! # The effect of the calls

`add` has the effect that is described, unless an empty range lies in the midst
of the blocks and in none of them, when it is ignored. `clearto` leaves the
blocks that end behind a sequence number, and each keeps its flags and its place
on the LIFO.
-/

namespace Ns2XPass

namespace ReassemblyQueue

variable {rq rq' : ReassemblyQueue} {as pre todo post stack stack' : List ℕ} {a b c h t n : ℕ}
  {p q : Option ℕ} {s e seq : TcpSeq} {f flags : TcpFlag} {rqflags : RqFlag} {initcnt : ℤ}

/-- The range is empty, it lies in the midst of the blocks, and no block contains it but at an
end. -/
structure Ignored (rq : ReassemblyQueue) (as : List ℕ) (s e : TcpSeq) : Prop where
  empty : s = e
  behind : ∃ x ∈ as, rq.startseq x < s
  before : ∃ x ∈ as, s < rq.endseq x
  outside : ∀ x ∈ as, ¬ (rq.startseq x < s ∧ s < rq.endseq x)

instance : Decidable (rq.Ignored as s e) :=
  decidable_of_iff (s = e ∧ (∃ x ∈ as, rq.startseq x < s) ∧ (∃ x ∈ as, s < rq.endseq x) ∧
      ∀ x ∈ as, ¬ (rq.startseq x < s ∧ s < rq.endseq x))
    ⟨fun h => ⟨h.1, h.2.1, h.2.2.1, h.2.2.2⟩, fun h => ⟨h.1, h.2, h.3, h.4⟩⟩

/-- The loop deletes nothing where no block lies within the new range. -/
theorem kill_none (hs : rq.fifo.Spells (pre ++ todo ++ post)) (hd : (pre ++ todo ++ post).Nodup)
    (f : TcpFlag) (initcnt : ℤ) (hout : ∀ a ∈ todo, ¬ (s ≤ rq.startseq a ∧ rq.endseq a ≤ e))
    (hn : todo.length < n) :
    kill s e post.head? n rq f initcnt false (todo ++ post).head? =
      .ok (.done rq f initcnt false) := by
  induction todo generalizing pre n with
  | nil =>
    obtain ⟨n, rfl⟩ : ∃ k, n = k + 1 := ⟨n - 1, by omega⟩
    cases post with
    | nil => simp [kill]
    | cons q post => simp [kill]
  | cons r todo ih =>
    obtain ⟨n, rfl⟩ : ∃ k, n = k + 1 := ⟨n - 1, by omega⟩
    have hlist : pre ++ r :: todo ++ post = pre ++ r :: (todo ++ post) := by simp
    have hlist' : pre ++ r :: todo ++ post = pre ++ [r] ++ todo ++ post := by simp
    have hr := hout r List.mem_cons_self
    have hnext : rq.fifo.next r = (todo ++ post).head? := (hlist ▸ hs).next_eq
    have hq : post.head? ≠ some r := head?_ne_some hd (by simp)
    rw [List.cons_append, List.head?_cons, kill, if_neg hq,
      if_neg fun hx => hr ⟨hx.1.le, hx.2.ge⟩, if_neg hr, hnext]
    exact ih (hlist' ▸ hs) (hlist' ▸ hd) (fun a ha => hout a (List.mem_cons_of_mem r ha))
      (Nat.lt_of_succ_lt_succ hn)

/-- The loop from the block before the new range on, or from the head. -/
theorem Threaded.scan_none {mid : List ℕ} (h : rq.Threaded (pre ++ mid ++ post)) (f : TcpFlag)
    (initcnt : ℤ) (hout : ∀ a ∈ pre ++ mid, ¬ (s ≤ rq.startseq a ∧ rq.endseq a ≤ e)) :
    kill s e post.head? (rq.brk + 1) rq f initcnt false
        (pre.getLast? <|> (pre ++ mid ++ post).head?) = .ok (.done rq f initcnt false) := by
  have hlen := h.length_le
  rw [List.length_append, List.length_append] at hlen
  rcases List.eq_nil_or_concat pre with rfl | ⟨pre, p, rfl⟩
  · have hs : rq.fifo.Spells ([] ++ mid ++ post) := h.spells
    have hmid : ∀ a ∈ mid, ¬ (s ≤ rq.startseq a ∧ rq.endseq a ≤ e) := hout
    exact kill_none hs h.nodup f initcnt hmid (by omega)
  · rw [List.concat_eq_append] at h hlen hout ⊢
    have hlist : pre ++ [p] ++ mid ++ post = pre ++ p :: mid ++ post := by simp
    have hk := kill_none (n := rq.brk + 1) (hlist ▸ h.spells) (hlist ▸ h.nodup) f initcnt
      (fun a ha => hout a (by
        rw [List.append_assoc]
        exact List.mem_append_right pre ha))
      (by rw [List.length_append] at hlen; simp only [List.length_cons] at hlen ⊢; omega)
    rw [List.getLast?_concat]
    exact hk

/-- A pass that deletes nothing ends with the merge. -/
theorem again2_eq_merge (hh : rq.fifo.head = some h) (ht : rq.fifo.tail = some t)
    (htail : ¬ rq.endseq t ≤ s) (hhead : ¬ e ≤ rq.startseq h)
    (hq : seek rq.fifo.next (fun b => rq.startseq b < e) (rq.brk + 1) (some h) = some q)
    (hp : seek rq.fifo.prev (fun b => s < rq.endseq b) (rq.brk + 1) (some t) = some p)
    (hk : kill s e q (rq.brk + 1) rq f initcnt false (p <|> some h) =
      .ok (.done rq f initcnt false)) :
    again2 s e rqflags (n + 1) rq f initcnt = rq.merge s e f rqflags initcnt p q := by
  rw [again2, hh, ht]
  dsimp only
  rw [if_neg htail, if_neg hhead, hq, hp]
  dsimp only
  rw [hk]
  have hempty : ¬ rq.empty = true := by simp [empty, hh]
  exact (if_neg hempty).trans (if_neg Bool.false_ne_true)

/-- An empty range that no block contains but at an end makes no difference. -/
theorem merge_ignored (hh : rq.fifo.head = some h) {p q : ℕ} (hp : rq.fifo.next p = some b)
    (hb : s ≤ rq.startseq b) (hq : rq.fifo.prev q = some a) (ha : rq.endseq a ≤ s) :
    rq.merge s s f rqflags initcnt (some p) (some q) = .ok (rq.advance h, f) := by
  have hleft : rq.leftBlock s (some p) = .ok none := by
    rw [leftBlock, hp]
    exact congrArg Except.ok (if_neg hb.not_gt)
  have hright : rq.rightBlock s (some q) = .ok none := by
    rw [rightBlock, hq]
    exact congrArg Except.ok (if_neg ha.not_gt)
  rw [merge_of_none hleft, mergeFrom_of_none hright, fill, if_pos le_rfl, hh]

/-- An empty range within a block leaves its flags with the block. -/
theorem Listed.again2_point (h : rq.Listed (pre ++ c :: post) stack)
    (hord : Ordered rq.startseq rq.endseq (pre ++ c :: post)) (hhead : rq.fifo.head = some a)
    (htail : rq.fifo.tail = some b) (hb : ¬ rq.endseq b ≤ s) (ha : ¬ s ≤ rq.startseq a)
    (hcs : rq.startseq c < s) (hsc : s < rq.endseq c) (f : TcpFlag) (initcnt : ℤ) :
    Affects rq (pre ++ c :: post) stack s s f
      (ReassemblyQueue.again2 s s rqflags (n + 1) rq f initcnt) := by
  obtain ⟨-, hsep, hlt⟩ := ordered_append.mp hord
  obtain ⟨-, hgt, -⟩ := ordered_cons.mp hsep
  have hpre : ∀ x ∈ pre, rq.endseq x < s := fun x hx => (hlt x hx c List.mem_cons_self).trans hcs
  have hpost : ∀ y ∈ post, s < rq.startseq y := fun y hy => hsc.trans (hgt y hy)
  have hlist : pre ++ c :: post = pre ++ [c] ++ post := by simp
  have hstart : ∀ x ∈ pre ++ [c], rq.startseq x < s := List.forall_mem_append.mpr
    ⟨fun x hx => (hord.le x (by simp [hx])).trans_lt (hpre x hx), by simpa using hcs⟩
  have hend : ∀ x ∈ c :: post, s < rq.endseq x := List.forall_mem_cons.mpr
    ⟨hsc, fun y hy => (hpost y hy).trans_le (hord.le y (by simp [hy]))⟩
  have hseek := (hlist ▸ h.threaded).seek_next hstart fun y hy =>
    (hpost y (List.mem_of_mem_head? hy)).not_gt
  have hseek' := h.threaded.seek_prev hend fun x hx =>
    (hpre x (List.mem_of_getLast? hx)).not_gt
  have hkill := (hlist ▸ h.threaded).scan_none (s := s) (e := s) f initcnt
    fun x hx hin => (hstart x hx).not_ge hin.1
  rw [← hlist, ← h.threaded.spells.head_eq, hhead] at hkill
  rw [hhead] at hseek
  rw [htail] at hseek'
  rw [again2_eq_merge hhead htail hb ha hseek hseek' hkill]
  exact h.merge_within hord hsc hcs (.inl hcs) (.inr hcs) (.inr hsc) le_rfl

/-- An empty range in the midst of the blocks, which no block contains but at an end. -/
theorem Listed.again2_ignored (h : rq.Listed as stack) (hord : Ordered rq.startseq rq.endseq as)
    (hhead : rq.fifo.head = some a) (htail : rq.fifo.tail = some b) (hb : ¬ rq.endseq b ≤ s)
    (ha : ¬ s ≤ rq.startseq a) (hi : rq.Ignored as s s) (f : TcpFlag) (initcnt : ℤ) :
    ReassemblyQueue.again2 s s rqflags (n + 1) rq f initcnt = .ok (rq.advance a, f) := by
  obtain ⟨pre, post, rfl, hpre, hpost⟩ := hord.exists_start s
  obtain ⟨-, ⟨x, hx, hxs⟩, ⟨y, hy, hsy⟩, hout⟩ := hi
  have hpre' : ∀ x ∈ pre, rq.endseq x ≤ s := fun x hx =>
    not_lt.mp fun hlt => hout x (by simp [hx]) ⟨hpre x hx, hlt⟩
  have hxp : x ∈ pre := (List.mem_append.mp hx).resolve_right fun hx => (hpost x hx).not_gt hxs
  have hyp : y ∈ post := (List.mem_append.mp hy).resolve_left fun hy => (hpre' y hy).not_gt hsy
  rcases List.eq_nil_or_concat pre with rfl | ⟨pre, p, rfl⟩
  · exact absurd hxp List.not_mem_nil
  obtain ⟨q, post, rfl⟩ := List.exists_cons_of_ne_nil (List.ne_nil_of_mem hyp)
  rw [List.concat_eq_append] at *
  have hlist : pre ++ [p] ++ q :: post = pre ++ p :: q :: post := by simp
  have hlist' : pre ++ [p] ++ q :: post = pre ++ [p] ++ [q] ++ post := by simp
  have hspells := h.threaded.spells
  have hseek := h.threaded.seek_next hpre fun y hy =>
    (hpost y (List.mem_of_mem_head? hy)).not_gt
  obtain ⟨-, hqsep, -⟩ := ordered_append.mp hord
  obtain ⟨hqle, hgt, -⟩ := ordered_cons.mp hqsep
  have hqs := hpost q (by simp)
  have hend : ∀ y ∈ post, s < rq.endseq y := fun y hy =>
    (hqs.trans hqle).trans_lt ((hgt y hy).trans_le (hqsep.le y (by simp [hy])))
  have hnext : rq.fifo.next p = some q := (hlist ▸ hspells).next_eq
  have hprev : rq.fifo.prev q = some p := by
    rw [hspells.prev_eq, List.getLast?_concat]
  rw [hhead] at hseek
  rcases (hqs.trans hqle).lt_or_eq with hlt | heq
  · have hseek' := h.threaded.seek_prev (List.forall_mem_cons.mpr ⟨hlt, hend⟩)
      fun x hx => (hpre' x (List.mem_of_getLast? hx)).not_gt
    have h' : rq.Threaded (pre ++ [p] ++ [] ++ q :: post) := by simpa using h.threaded
    have hkill := h'.scan_none (s := s) (e := s) f initcnt
      fun x hx hin => (hpre x (by simpa using hx)).not_ge hin.1
    rw [List.append_nil, ← hspells.head_eq, hhead] at hkill
    rw [htail] at hseek'
    rw [again2_eq_merge hhead htail hb ha hseek hseek' hkill, List.getLast?_concat, List.head?_cons]
    exact merge_ignored hhead hnext hqs hprev (hpre' p (by simp))
  · -- The block `q` is the empty range itself, and both searches stop at it.
    have hseek' := (hlist' ▸ h.threaded).seek_prev hend fun x hx => by
      rw [List.getLast?_concat] at hx
      rw [← Option.some.inj hx]
      exact heq.not_lt
    have hs : rq.fifo.Spells (pre ++ [p] ++ [] ++ q :: post) := by simpa using hspells
    have hkill := kill_none (s := s) (e := s) (n := rq.brk + 1) hs (by simpa using h.threaded.nodup)
      f initcnt (by simp) (by simp)
    rw [htail, List.getLast?_concat] at hseek'
    rw [again2_eq_merge hhead htail hb ha hseek hseek' hkill]
    cases post with
    | nil =>
      rw [List.mem_singleton.mp hyp] at hsy
      exact absurd heq hsy.ne
    | cons r post =>
      have hr := hgt r (by simp)
      exact merge_ignored hhead (hspells.next_eq) (heq.trans_lt hr).le hprev (hpre' p (by simp))

/-- The first block of all is inserted like any other, and is all that is counted. -/
theorem add_eq_of_empty (hse : s ≤ e) (hf : rq.fifo.head = none) (hl : rq.lifo.head = none) :
    rq.add s e f rqflags = (rq.endfast s e f rqflags 1 false none none).map fun r =>
      ({ r.1 with total := e - s }, r.2) := by
  rw [add, if_neg hse.not_gt, hf, hl, endfast, newBlock, newseginfo]
  cases rq.freelist <;> simp [push, hl, Except.map]

theorem Listed.add_empty (h : rq.Listed [] stack) (hse : s ≤ e) (f : TcpFlag) (rqflags : RqFlag) :
    Affects rq [] stack s e f (rq.add s e f rqflags) := by
  obtain rfl := h.same.eq_nil
  have h' : rq.Listed ([] ++ []) [] := h
  obtain ⟨rq', flags, hok, rfl, n, -, hplaced⟩ :=
    h'.endfast_fresh s e f rqflags 1
  rw [List.getLast?_nil, List.head?_nil] at hok
  rw [add_eq_of_empty hse h.threaded.spells.head_eq h.spells.head_eq, hok]
  have hplaced' : Placed rq { rq' with total := e - s } [] [] [n] n s e flags :=
    ⟨hplaced.listed.congr rfl rfl rfl rfl, hplaced.keeping, hplaced.startseq, hplaced.endseq,
      hplaced.pflags⟩
  exact ⟨_, _, rfl, n, _, hplaced'.fresh (by simp) (by simp) hse ⟨by simp, by simp⟩⟩

theorem add_eq_again2 (hse : s ≤ e) (hh : rq.fifo.head = some a) :
    rq.add s e f rqflags = again2 s e rqflags (rq.brk + 2) rq f 1 := by
  rw [add, if_neg hse.not_gt, hh]

/-- `add` has the effect that is described, unless the range is ignored. -/
theorem Listed.add (h : rq.Listed as stack) (hord : Ordered rq.startseq rq.endseq as) (hse : s ≤ e)
    (hdang : ¬ rq.Dangling as s e) (hi : ¬ rq.Ignored as s e) (f : TcpFlag) (rqflags : RqFlag) :
    Affects rq as stack s e f (rq.add s e f rqflags) := by
  have hspells := h.threaded.spells
  cases as with
  | nil => exact h.add_empty hse f rqflags
  | cons a as =>
    rw [add_eq_again2 hse hspells.head_eq]
    rcases hse.lt_or_eq with hlt | rfl
    · exact h.again2 hord (List.cons_ne_nil a as) hlt hdang f 1
    · obtain ⟨b, hb⟩ := Option.ne_none_iff_exists'.mp
        (mt List.getLast?_eq_none_iff.mp (List.cons_ne_nil a as))
      have htail := hspells.tail_eq.trans hb
      by_cases hends : rq.endseq b ≤ s ∨ s ≤ rq.startseq a
      · exact h.again2_ends hord le_rfl hspells.head_eq htail hends f 1
      · obtain ⟨hbs, hsa⟩ := not_or.mp hends
        have hin : ∃ c ∈ a :: as, rq.startseq c < s ∧ s < rq.endseq c := by
          by_contra hno
          exact hi ⟨rfl, ⟨a, by simp, not_le.mp hsa⟩, ⟨b, List.mem_of_getLast? hb, not_le.mp hbs⟩,
            fun x hx hxs => hno ⟨x, hx, hxs⟩⟩
        obtain ⟨c, hc, hcs, hsc⟩ := hin
        obtain ⟨pre, post, heq⟩ := List.append_of_mem hc
        have hhead : rq.fifo.head = some a := hspells.head_eq
        rw [heq] at h hord ⊢
        exact h.again2_point hord hhead htail hbs hsa hcs hsc f 1

/-- An empty range that is ignored changes nothing but `rcv_nxt_`. -/
theorem Listed.add_ignored (h : rq.Listed as stack) (hord : Ordered rq.startseq rq.endseq as)
    (hi : rq.Ignored as s e) (f : TcpFlag) (rqflags : RqFlag) :
    ∃ a, rq.add s e f rqflags = .ok (rq.advance a, f) := by
  obtain rfl := hi.empty
  obtain ⟨x, hx, hxs⟩ := hi.behind
  obtain ⟨y, hy, hsy⟩ := hi.before
  obtain ⟨a, as, rfl⟩ := List.exists_cons_of_ne_nil (List.ne_nil_of_mem hx)
  obtain ⟨b, hb⟩ := Option.ne_none_iff_exists'.mp
    (mt List.getLast?_eq_none_iff.mp (List.cons_ne_nil a as))
  have hspells := h.threaded.spells
  obtain ⟨hale, hgt, -⟩ := ordered_cons.mp hord
  have has : rq.startseq a < s := by
    rcases List.mem_cons.mp hx with rfl | hx
    · exact hxs
    · exact hale.trans_lt ((hgt x hx).trans hxs)
  have hsb : s < rq.endseq b := by
    obtain ⟨bs, heq⟩ := List.getLast?_eq_some_iff.mp hb
    rw [heq] at hord hy
    obtain ⟨-, hone, hlt⟩ := ordered_append.mp hord
    rcases List.mem_append.mp hy with hy | hy
    · exact hsy.trans ((hlt y hy b (by simp)).trans_le (hone.le b (by simp)))
    · rwa [← List.mem_singleton.mp hy]
  refine ⟨a, ?_⟩
  rw [add_eq_again2 le_rfl hspells.head_eq]
  exact h.again2_ignored hord hspells.head_eq (hspells.tail_eq.trans hb) hsb.not_ge has.not_ge hi
    f 1

section Clear

/-- What `clearto` leaves, and the flags that it returns. -/
structure Clears (rq : ReassemblyQueue) (as stack : List ℕ) (seq : TcpSeq) (rq' : ReassemblyQueue)
    (flags : TcpFlag) : Prop where
  listed : rq'.Listed (as.filter fun a => seq < rq.endseq a)
    (stack.filter fun a => seq < rq.endseq a)
  startseq : ∀ a ∈ as, seq < rq.endseq a → rq'.startseq a = max (rq.startseq a) seq
  endseq : rq'.endseq = rq.endseq
  pflags : rq'.pflags = rq.pflags
  given : ∀ i, Has flags i ↔ ∃ a ∈ as, rq.startseq a ≤ seq ∧ Has (rq.pflags a) i

/-- The loop of `clearto` deletes the blocks that end by `seq` and collects their flags. -/
theorem Listed.clearBelow (h : rq.Listed as stack) (hord : Ordered rq.startseq rq.endseq as)
    (seq : TcpSeq) (flag : TcpFlag) (hn : as.length < n) :
    ∃ rq' flag', clearBelow seq n rq flag as.head? =
        .ok (rq', flag', (as.filter fun a => seq < rq.endseq a).head?) ∧
      rq'.Listed (as.filter fun a => seq < rq.endseq a) (stack.filter fun a => seq < rq.endseq a) ∧
      SameBlocks rq rq' ∧ rq'.pflags = rq.pflags ∧
      ∀ i, Has flag' i ↔ Has flag i ∨ ∃ a ∈ as, rq.endseq a ≤ seq ∧ Has (rq.pflags a) i := by
  induction as generalizing rq stack flag n with
  | nil =>
    obtain rfl := h.same.eq_nil
    refine ⟨rq, flag, ?_, h, ⟨rfl, rfl, rfl⟩, rfl, fun i => by simp⟩
    cases n <;> rfl
  | cons a as ih =>
    obtain ⟨n, rfl⟩ : ∃ k, n = k + 1 := ⟨n - 1, by omega⟩
    obtain ⟨hle, hlt, has⟩ := ordered_cons.mp hord
    rw [List.head?_cons, ReassemblyQueue.clearBelow]
    split_ifs with hseq
    · have h₀ : rq.Listed ([] ++ a :: as) stack := h
      have h' : ((({ rq with total := rq.total - (rq.endseq a - rq.startseq a) }.sremove a).fremove
          a).deleteseginfo a).Listed ([] ++ as) (stack.filter fun b => b ≠ a) :=
        h₀.remove.congr rfl rfl rfl rfl
      obtain ⟨rq', flag', he, hl, hsame, hpf, hflag⟩ := ih (n := n) h' has (flag ||| rq.pflags a)
        (by rw [List.length_cons] at hn; omega)
      have hfilter : (stack.filter fun b => b ≠ a).filter (fun b => seq < rq.endseq b) =
          stack.filter fun b => seq < rq.endseq b := by
        rw [List.filter_filter]
        refine List.filter_congr fun b _ => ?_
        by_cases hba : b = a
        · simp [hba, hseq]
        · simp [hba]
      refine ⟨rq', flag', ?_, ?_, ⟨hsame.startseq, hsame.endseq, hsame.rcvNxt⟩, hpf, fun i => ?_⟩
      · rw [List.filter_cons_of_neg (by simpa using hseq), h₀.threaded.spells.next_eq]
        exact he
      · rw [List.filter_cons_of_neg (by simpa using hseq), ← hfilter]
        exact hl
      · rw [hflag i, has_or]
        constructor
        · rintro ((hi | hi) | ⟨b, hb, hbs, hi⟩)
          · exact .inl hi
          · exact .inr ⟨a, by simp, hseq, hi⟩
          · exact .inr ⟨b, by simp [hb], hbs, hi⟩
        · rintro (hi | ⟨b, hb, hbs, hi⟩)
          · exact .inl (.inl hi)
          · rcases List.mem_cons.mp hb with rfl | hb
            · exact .inl (.inr hi)
            · exact .inr ⟨b, hb, hbs, hi⟩
    · rw [not_le] at hseq
      have hall : ∀ b ∈ a :: as, seq < rq.endseq b := List.forall_mem_cons.mpr
        ⟨hseq, fun b hb => hseq.trans ((hlt b hb).trans_le (has.le b hb))⟩
      have hfilter : ∀ xs : List ℕ, (∀ b ∈ xs, b ∈ a :: as) →
          xs.filter (fun b => seq < rq.endseq b) = xs := fun xs hxs =>
        List.filter_eq_self.mpr fun b hb => by simpa using hall b (hxs b hb)
      rw [hfilter _ fun _ => id, hfilter _ fun b hb => h.same.mem_iff.mp hb]
      refine ⟨rq, flag, rfl, h, ⟨rfl, rfl, rfl⟩, rfl, fun i =>
        ⟨.inl, fun hi => hi.resolve_right ?_⟩⟩
      rintro ⟨b, hb, hle, -⟩
      exact hle.not_gt (hall b hb)

theorem Listed.clearto (h : rq.Listed as stack) (hord : Ordered rq.startseq rq.endseq as)
    (seq : TcpSeq) :
    ∃ rq' flags, rq.clearto seq = .ok (rq', flags) ∧ Clears rq as stack seq rq' flags := by
  obtain ⟨rq', flag, he, hl, hsame, hpf, hflag⟩ :=
    h.clearBelow hord seq 0 (Nat.lt_succ_of_le h.threaded.length_le)
  have hzero : ∀ i, ¬ Has 0 i := fun i => by simp [Has]
  have hkept : ∀ a ∈ as, seq < rq.endseq a → a ∈ as.filter fun a => seq < rq.endseq a :=
    fun a ha hs => List.mem_filter.mpr ⟨ha, decide_eq_true hs⟩
  have hsub := hord.sublist (List.filter_sublist (p := fun a => decide (seq < rq.endseq a)))
  have hmem : ∀ a ∈ as.filter fun a => seq < rq.endseq a, a ∈ as ∧ seq < rq.endseq a := fun a ha =>
    ⟨(List.mem_filter.mp ha).1, of_decide_eq_true (List.mem_filter.mp ha).2⟩
  rw [ReassemblyQueue.clearto, h.threaded.spells.head_eq, he]
  cases hfilter : as.filter fun a => seq < rq.endseq a with
  | nil =>
    rw [hfilter] at hl hkept
    refine ⟨rq', flag, rfl, ?_, fun a ha hs => absurd (hkept a ha hs) List.not_mem_nil,
      hsame.endseq, hpf, fun i => ?_⟩
    · rw [hfilter]
      exact hl
    · rw [hflag i]
      constructor
      · intro hi
        obtain ⟨a, ha, hs, hi⟩ := hi.resolve_left (hzero i)
        exact ⟨a, ha, (hord.le a ha).trans hs, hi⟩
      · rintro ⟨a, ha, hs, hi⟩
        exact .inr ⟨a, ha, not_lt.mp fun hlt => List.not_mem_nil (hkept a ha hlt), hi⟩
  | cons y post =>
    rw [hfilter] at hl hkept hsub hmem
    obtain ⟨hy, hsy⟩ := hmem y (by simp)
    obtain ⟨-, hgt, -⟩ := ordered_cons.mp hsub
    have hypost : y ∉ post := (List.nodup_cons.mp hl.threaded.nodup).1
    have hbehind : ∀ a ∈ post, seq < rq.startseq a := fun a ha => hsy.trans (hgt a ha)
    refine ⟨(rq'.trim seq flag y).1, (rq'.trim seq flag y).2, rfl, ?_, fun a ha hs => ?_,
      trim_endseq.trans hsame.endseq, trim_pflags.trans hpf, fun i => ?_⟩
    · rw [hfilter, ReassemblyQueue.trim]
      split_ifs
      · exact hl.congr rfl rfl rfl rfl
      · exact hl
    · rw [ReassemblyQueue.trim, hsame.startseq, hsame.endseq]
      rcases List.mem_cons.mp (hkept a ha hs) with rfl | hap
      · split_ifs with htrim
        · exact (Function.update_self ..).trans (max_eq_right htrim.1).symm
        · rw [hsame.startseq]
          exact (max_eq_left (not_le.mp fun hle => htrim ⟨hle, hs⟩).le).symm
      · have hne : a ≠ y := ne_of_mem_of_not_mem hap hypost
        rw [max_eq_left (hbehind a hap).le]
        split_ifs
        · exact Function.update_of_ne hne ..
        · rw [hsame.startseq]
    · have hiff : Has (rq'.trim seq flag y).2 i ↔
          Has flag i ∨ rq.startseq y ≤ seq ∧ Has (rq.pflags y) i := by
        rw [ReassemblyQueue.trim, hsame.startseq, hsame.endseq, hpf]
        split_ifs with htrim
        · simp [htrim.1]
        · exact ⟨.inl, fun hi => hi.resolve_right fun hi => htrim ⟨hi.1, hsy⟩⟩
      rw [hiff, hflag i]
      constructor
      · rintro ((hi | ⟨a, ha, hs, hi⟩) | ⟨hs, hi⟩)
        · exact absurd hi (hzero i)
        · exact ⟨a, ha, (hord.le a ha).trans hs, hi⟩
        · exact ⟨y, hy, hs, hi⟩
      · rintro ⟨a, ha, hs, hi⟩
        by_cases hlt : seq < rq.endseq a
        · rcases List.mem_cons.mp (hkept a ha hlt) with rfl | hap
          · exact .inr ⟨hs, hi⟩
          · exact absurd (hbehind a hap) hs.not_gt
        · exact .inl (.inr ⟨a, ha, not_lt.mp hlt, hi⟩)

end Clear

/-! ## What a call leaves -/

/-- The blocks on the FIFO from the head on. -/
def blocks (rq : ReassemblyQueue) : List ℕ := walk rq.fifo.next rq.brk rq.fifo.head

/-- The blocks on the LIFO from the top on. -/
def recent (rq : ReassemblyQueue) : List ℕ := walk rq.lifo.next rq.brk rq.lifo.head

theorem Listed.blocks_eq (h : rq.Listed as stack) : rq.blocks = as :=
  h.threaded.spells.forward.walk_eq_of_le h.threaded.length_le

theorem Listed.recent_eq (h : rq.Listed as stack) : rq.recent = stack :=
  h.spells.forward.walk_eq_of_le (h.same.length_eq.trans_le h.threaded.length_le)

theorem Effect.ordered (he : Effect rq as stack s e f rq' flags b stack')
    (hord : Ordered rq.startseq rq.endseq as) (hse : s ≤ e) :
    Ordered rq'.startseq rq'.endseq (rq.before as s ++ b :: rq.behind as e) := by
  have hsplit : rq.before as s ++ rq.touching as s e ++ rq.behind as e = as := hord.eq_filters hse
  rw [← hsplit] at hord
  obtain ⟨hbt, -, hbh⟩ := ordered_append.mp hord
  obtain ⟨-, -, hbt⟩ := ordered_append.mp hbt
  refine hord.replace (fun x hx => ?_) ((he.hull.lo_le.trans hse).trans he.hull.le_hi)
    (fun x hx => ?_) fun y hy => ?_
  · exact ⟨(he.keeping x hx).1, (he.keeping x hx).2.1⟩
  · rcases he.hull.lo_eq with hlo | ⟨a, ha, hlo⟩
    · rw [hlo]
      simpa using (List.mem_filter.mp hx).2
    · rw [hlo]
      exact hbt x hx a ha
  · rcases he.hull.hi_eq with hhi | ⟨a, ha, hhi⟩
    · rw [hhi]
      simpa using (List.mem_filter.mp hy).2
    · rw [hhi]
      exact hbh a (List.mem_append_right _ ha) y hy

theorem Clears.ordered (hc : Clears rq as stack seq rq' flags)
    (hord : Ordered rq.startseq rq.endseq as) :
    Ordered rq'.startseq rq'.endseq (as.filter fun a => seq < rq.endseq a) := by
  have hsub := hord.sublist (List.filter_sublist (p := fun a => decide (seq < rq.endseq a)))
  have hmem : ∀ a ∈ as.filter fun a => seq < rq.endseq a, a ∈ as ∧ seq < rq.endseq a := fun a ha =>
    ⟨(List.mem_filter.mp ha).1, of_decide_eq_true (List.mem_filter.mp ha).2⟩
  refine ⟨fun a ha => ?_, hsub.apart.imp_of_mem fun ha hb hab => ?_⟩
  · obtain ⟨has, hs⟩ := hmem a ha
    rw [hc.startseq a has hs, hc.endseq]
    exact max_le (hord.le a has) hs.le
  · obtain ⟨hbs, hs⟩ := hmem _ hb
    rw [hc.startseq _ hbs hs, hc.endseq]
    exact hab.trans_le (le_max_left ..)

end ReassemblyQueue

namespace RqCall

/-- The ranges that are added may be empty. -/
def Proper : RqCall → Prop
  | .add sseq eseq _ _ => sseq ≤ eseq
  | _ => True

instance : DecidablePred Proper
  | .add sseq eseq _ _ => inferInstanceAs (Decidable (sseq ≤ eseq))
  | .clearto _ | .cleartonxt | .clear | .init _ => inferInstanceAs (Decidable True)

end RqCall

/-- A reassembly queue that is empty at first, to which any segments are added. -/
def segments (rcvnxt : TcpSeq) : Machine ReassemblyQueue RqCall RqError where
  Init rq := rq.Fresh rcvnxt
  Enabled _ c := c.Proper
  step rq c := c.step rq

end Ns2XPass
