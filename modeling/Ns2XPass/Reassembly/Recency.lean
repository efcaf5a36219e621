import Ns2XPass.Library.Except
import Ns2XPass.Reassembly.Calls

/-! # The order of the SACK blocks

`gensack` reports the blocks from the top of the LIFO on. A history variable
stamps every block with the time of the last `add` that touched it. The LIFO
follows the stamps as long as a block that is extended is on top of all others
that the new range does not touch.
-/

namespace Ns2XPass

variable {s e seq rcvnxt : TcpSeq} {i : ℕ}

namespace ReassemblyQueue

variable {rq rq' : ReassemblyQueue} {as as' stack stack' : List ℕ} {a b n : ℕ}
  {f flags : TcpFlag}
  {rqflags : RqFlag} {m : ℤ}

/-- The bounds of a block. -/
def range (rq : ReassemblyQueue) (b : ℕ) : TcpSeq × TcpSeq := (rq.startseq b, rq.endseq b)

/-- The loop of `gensack` at the block `p`. -/
def writeSacks (rq : ReassemblyQueue) : ℕ → ℤ → Option ℕ → List (TcpSeq × TcpSeq)
  | 0, _, _ => []
  | _ + 1, _, none => []
  | n + 1, maxsblock, some p =>
    if maxsblock = 0 then []
    else (rq.startseq p, rq.endseq p) :: rq.writeSacks n (maxsblock - 1) (rq.lifo.next p)

/-- The SACK blocks that `gensack` writes. Their number is its result. -/
def gensack (rq : ReassemblyQueue) (maxsblock : ℤ) : List (TcpSeq × TcpSeq) :=
  rq.writeSacks (rq.brk + 1) maxsblock rq.lifo.head

/-- The number of blocks that are written out of `n`: a negative limit is none. -/
def written (m : ℤ) (n : ℕ) : ℕ := if m < 0 then n else m.toNat

theorem written_succ (hm : m ≠ 0) (n : ℕ) : written m (n + 1) = written (m - 1) n + 1 := by
  unfold written
  split_ifs <;> omega

theorem writeSacks_eq {start : Option ℕ} (h : Segment rq.lifo.next start stack none)
    (hn : stack.length < n) :
    rq.writeSacks n m start = (stack.map rq.range).take (written m stack.length) := by
  induction stack generalizing start n m with
  | nil =>
    obtain rfl := h
    cases n <;> simp [writeSacks]
  | cons b stack ih =>
    obtain ⟨rfl, h⟩ := h
    obtain ⟨n, rfl⟩ : ∃ k, n = k + 1 := ⟨n - 1, by omega⟩
    rw [List.length_cons] at hn ⊢
    rw [writeSacks]
    split_ifs with hm
    · simp [hm, written]
    · rw [written_succ hm, ih h (by omega), List.map_cons, List.take_succ_cons]
      rfl

theorem Listed.gensack_eq (h : rq.Listed as stack) (m : ℤ) :
    rq.gensack m = (stack.map rq.range).take (written m stack.length) := by
  have hlen := h.same.length_eq.trans_le h.threaded.length_le
  exact writeSacks_eq h.spells.forward (Nat.lt_succ_of_le hlen)

/-- Adding the range leaves the block that contains it on top: it is a new one, or on the LIFO there
is nothing above it that the range does not touch. -/
def Refreshes (rq : ReassemblyQueue) (s e : TcpSeq) : Prop :=
  ¬ rq.Dangling rq.blocks s e ∧ ∀ b ∈ rq.blocks, rq.Survives rq.blocks s e b →
    ∀ x ∈ rq.recent.takeWhile fun x => x ≠ b, s ≤ rq.endseq x ∧ rq.startseq x ≤ e

instance : Decidable (rq.Refreshes s e) := inferInstanceAs (Decidable (_ ∧ _))

/-- What a range does to the bounds of the blocks and to the LIFO. -/
structure Reshapes (rq : ReassemblyQueue) (as stack : List ℕ) (s e : TcpSeq) (rq' : ReassemblyQueue)
    (as' : List ℕ) (b : ℕ) (stack' : List ℕ) : Prop where
  listed : rq'.Listed as' stack'
  ordered : Ordered rq'.startseq rq'.endseq as'
  mem : b ∈ as'
  ranges : ∀ x ∈ as, x ∉ rq.touching as s e → rq'.range x = rq.range x
  hull : Hull rq (rq.touching as s e) s e (rq'.startseq b) (rq'.endseq b)
  restacked : Restacked rq as stack s e b stack'

theorem Effect.reshapes (he : Effect rq as stack s e f rq' flags b stack')
    (hord : Ordered rq.startseq rq.endseq as) (hse : s ≤ e) :
    Reshapes rq as stack s e rq' (rq.before as s ++ b :: rq.behind as e) b stack' := by
  refine ⟨he.listed, he.ordered hord hse, by simp, fun x hx hxt => ?_, he.hull, he.restacked⟩
  have hsplit : rq.before as s ++ rq.touching as s e ++ rq.behind as e = as := hord.eq_filters hse
  have hkeep := he.keeping x (by
    rw [← hsplit] at hx
    simp only [List.mem_append] at hx ⊢
    tauto)
  exact Prod.ext hkeep.1 hkeep.2.1

/-- An empty range at an end of a block, or the same as one, leaves the block as it is. -/
theorem Ignored.reshapes (hi : rq.Ignored as s e) (hl : rq.Listed as stack)
    (hord : Ordered rq.startseq rq.endseq as) (hb : b ∈ rq.touching as s e) :
    Reshapes rq as stack s e (rq.advance a) as b stack := by
  obtain rfl := hi.empty
  obtain ⟨hbas, hsb, hbs⟩ := mem_touching.mp hb
  have hone : ∀ x ∈ rq.touching as s s, x = b := fun x hx => by
    obtain ⟨hxas, hsx, hxs⟩ := mem_touching.mp hx
    rcases hord.eq_or_lt hxas hbas with hxb | hxb | hbx
    · exact hxb
    · exact absurd (hbs.trans hsx) hxb.not_ge
    · exact absurd (hxs.trans hsb) hbx.not_ge
  refine ⟨hl.congr rfl rfl rfl rfl, hord, hbas, fun _ _ _ => rfl, ?_, ?_⟩
  · exact ⟨hbs, fun a ha => (hone a ha ▸ le_rfl), .inr ⟨b, hb, rfl⟩, hsb,
      fun a ha => (hone a ha ▸ le_rfl), .inr ⟨b, hb, rfl⟩⟩
  · have hsurv : rq.Survives as s s b := by
      rcases hbs.lt_or_eq with hlt | heq
      · exact .inl ⟨hlt, hsb⟩
      · exact .inr (.inl ⟨heq, hsb⟩)
    have hall : stack.filter (fun x => x = b ∨ x ∉ rq.touching as s s) = stack :=
      List.filter_eq_self.mpr fun x _ => by
        by_cases hx : x ∈ rq.touching as s s
        · simp [hone x hx]
        · simp [hx]
    have hr : Restacked rq as stack s s b
      (stack.filter fun x => x = b ∨ x ∉ rq.touching as s s) := .survivor hbas hsurv
    rwa [hall] at hr

/-- The block that contains the range is on top of those that it does not touch. -/
theorem Reshapes.stack_eq (h : Reshapes rq as stack s e rq' as' b stack') (hl : rq.Listed as stack)
    (hord : Ordered rq.startseq rq.endseq as) (hse : s ≤ e) (hr : rq.Refreshes s e) :
    stack' = b :: stack.filter fun x => x ∉ rq.touching as s e := by
  obtain ⟨-, hr⟩ := hr
  rw [hl.blocks_eq, hl.recent_eq] at hr
  have hrestacked := h.restacked
  cases hrestacked with
  | fresh => rfl
  | survivor hb hs =>
    have htop := hr b hb hs
    have hle := hord.le b hb
    have hbt : b ∈ rq.touching as s e := by
      refine mem_touching.mpr ⟨hb, ?_⟩
      rcases hs with hs | hs | hs | hs
      · exact ⟨hs.2, hs.1.le.trans hse⟩
      · exact ⟨hse.trans hs.2, hs.1.trans_le hse⟩
      · exact ⟨hs.2.1, hs.1.trans_le hse⟩
      · exact ⟨hs.1.le.trans hle, hs.2.1⟩
    obtain ⟨pre, post, rfl⟩ := List.append_of_mem (hl.same.mem_iff.mpr hb)
    have hnot := (List.nodup_cons.mp (List.nodup_middle.mp hl.nodup)).1
    have hpre : ∀ x ∈ pre, x ≠ b ∧ x ∈ rq.touching as s e := fun x hx => by
      have hxb : x ≠ b := ne_of_mem_of_not_mem (List.mem_append_left post hx) hnot
      refine ⟨hxb, mem_touching.mpr ⟨hl.same.mem_iff.mp (by simp [hx]), htop x ?_⟩⟩
      rw [List.takeWhile_append_of_pos fun y hy => by
        simpa using ne_of_mem_of_not_mem (List.mem_append_left post hy) hnot]
      exact List.mem_append_left _ hx
    have hpost : ∀ x ∈ post, x ≠ b := fun x hx =>
      ne_of_mem_of_not_mem (List.mem_append_right pre hx) hnot
    have hnil : pre.filter (fun x => x = b ∨ x ∉ rq.touching as s e) = [] :=
      List.filter_eq_nil_iff.mpr fun x hx => by simpa using hpre x hx
    have hnil' : pre.filter (fun x => x ∉ rq.touching as s e) = [] :=
      List.filter_eq_nil_iff.mpr fun x hx => by simpa using (hpre x hx).2
    rw [List.filter_append, List.filter_append, List.filter_cons_of_pos (by simp),
      List.filter_cons_of_neg (by simpa using hbt), hnil, hnil', List.nil_append, List.nil_append]
    congr 1
    exact List.filter_congr fun x hx => by simp [hpost x hx]

end ReassemblyQueue

/-- The bounds of a block, and the time of the last `add` that touched it. -/
structure Stamp where
  lo : TcpSeq
  hi : TcpSeq
  time : ℕ

namespace Stamp

def range (x : Stamp) : TcpSeq × TcpSeq := (x.lo, x.hi)

def Touches (x : Stamp) (s e : TcpSeq) : Prop := s ≤ x.hi ∧ x.lo ≤ e

instance (x : Stamp) : Decidable (x.Touches s e) := inferInstanceAs (Decidable (_ ∧ _))

end Stamp

/-- The blocks, the one that was last added to first, and the time of the next `add`. -/
structure Recency where
  clock : ℕ
  stamps : List Stamp

namespace Recency

variable {g : Recency}

def touched (g : Recency) (s e : TcpSeq) : List Stamp := g.stamps.filter fun x => x.Touches s e

/-- An empty range that no block touches is not stored in the midst of the blocks. -/
def Drops (g : Recency) (s e : TcpSeq) : Prop :=
  s = e ∧ g.touched s e = [] ∧ (∃ x ∈ g.stamps, x.lo < s) ∧ ∃ x ∈ g.stamps, s < x.hi

instance : Decidable (g.Drops s e) := by
  have : Decidable (g.touched s e = []) := decidable_of_iff _ List.isEmpty_iff
  exact inferInstanceAs (Decidable (_ ∧ _ ∧ _ ∧ _))

/-- The block that the range and those that it touches become. -/
def merged (g : Recency) (s e : TcpSeq) : Stamp where
  lo := ((g.touched s e).map Stamp.lo).foldr min s
  hi := ((g.touched s e).map Stamp.hi).foldr max e
  time := g.clock

def add (g : Recency) (s e : TcpSeq) : Recency where
  clock := g.clock + 1
  stamps :=
    if g.Drops s e then g.stamps
    else g.merged s e :: g.stamps.filter fun x => ¬ x.Touches s e

def clearto (g : Recency) (seq : TcpSeq) : Recency where
  clock := g.clock
  stamps := (g.stamps.filter fun x => seq < x.hi).map fun x => { x with lo := max x.lo seq }

/-- Every block has its own stamp, and the first ones are the latest. -/
structure Dated (g : Recency) : Prop where
  past : ∀ x ∈ g.stamps, x.time < g.clock
  sorted : g.stamps.Pairwise fun x y => y.time < x.time

theorem Dated.add (h : g.Dated) (s e : TcpSeq) : (g.add s e).Dated := by
  have hpast : ∀ x ∈ g.stamps, x.time < g.clock + 1 := fun x hx => (h.past x hx).trans_le (by omega)
  rw [Recency.add]
  split_ifs
  · exact ⟨hpast, h.sorted⟩
  · refine ⟨List.forall_mem_cons.mpr ⟨Nat.lt_succ_self _, fun x hx => ?_⟩,
      List.pairwise_cons.mpr ⟨fun x hx => ?_, h.sorted.filter _⟩⟩
    · exact hpast x (List.mem_filter.mp hx).1
    · exact h.past x (List.mem_filter.mp hx).1

theorem Dated.clearto (h : g.Dated) (seq : TcpSeq) : (g.clearto seq).Dated := by
  refine ⟨fun x hx => ?_, List.pairwise_map.mpr (h.sorted.filter _)⟩
  obtain ⟨y, hy, rfl⟩ := List.mem_map.mp hx
  exact h.past y (List.mem_filter.mp hy).1

end Recency

section Least

variable {α : Type*} [LinearOrder α] {xs : List α} {x y : α}

theorem foldr_min_le (h : x = y ∨ x ∈ xs) : xs.foldr min y ≤ x := by
  induction xs with
  | nil => exact (h.resolve_right List.not_mem_nil).ge
  | cons z xs ih =>
    rcases h with h | h
    · exact (min_le_right ..).trans (ih (.inl h))
    · rcases List.mem_cons.mp h with rfl | h
      · exact min_le_left ..
      · exact (min_le_right ..).trans (ih (.inr h))

theorem le_foldr_min (hy : x ≤ y) (h : ∀ z ∈ xs, x ≤ z) : x ≤ xs.foldr min y := by
  induction xs with
  | nil => exact hy
  | cons z xs ih =>
    obtain ⟨hz, h⟩ := List.forall_mem_cons.mp h
    exact le_min hz (ih h)

theorem le_foldr_max (h : x = y ∨ x ∈ xs) : x ≤ xs.foldr max y := foldr_min_le (α := αᵒᵈ) h

theorem foldr_max_le (hy : y ≤ x) (h : ∀ z ∈ xs, z ≤ x) : xs.foldr max y ≤ x :=
  le_foldr_min (α := αᵒᵈ) hy h

end Least

theorem Recency.merged_contains (g : Recency) (s e : TcpSeq) :
    (g.merged s e).lo ≤ s ∧ e ≤ (g.merged s e).hi :=
  ⟨foldr_min_le (.inl rfl), le_foldr_max (.inl rfl)⟩

namespace ReassemblyQueue

variable {rq rq' : ReassemblyQueue} {g : Recency} {as as' stack stack' : List ℕ} {a b : ℕ}
  {f : TcpFlag} {c : RqCall}

/-- The LIFO holds the blocks in the order of their stamps. -/
structure Ranks (rq : ReassemblyQueue) (g : Recency) (as stack : List ℕ) : Prop where
  listed : rq.Listed as stack
  ordered : Ordered rq.startseq rq.endseq as
  ranges : stack.map rq.range = g.stamps.map Stamp.range
  dated : g.Dated

namespace Ranks

variable (h : rq.Ranks g as stack)
include h

theorem exists_stamp (ha : a ∈ as) : ∃ x ∈ g.stamps, x.range = rq.range a := by
  have hm : rq.range a ∈ g.stamps.map Stamp.range := by
    rw [← h.ranges]
    exact List.mem_map_of_mem (h.listed.same.mem_iff.mpr ha)
  exact List.mem_map.mp hm

theorem exists_block {x : Stamp} (hx : x ∈ g.stamps) : ∃ a ∈ as, rq.range a = x.range := by
  have hm : x.range ∈ stack.map rq.range := by
    rw [h.ranges]
    exact List.mem_map_of_mem hx
  obtain ⟨a, ha, hax⟩ := List.mem_map.mp hm
  exact ⟨a, h.listed.same.mem_iff.mp ha, hax⟩

theorem touching_range (ha : a ∈ rq.touching as s e) :
    ∃ x ∈ g.touched s e, x.range = rq.range a := by
  obtain ⟨has, hsa, hae⟩ := mem_touching.mp ha
  obtain ⟨x, hx, hxa⟩ := h.exists_stamp has
  obtain ⟨hlo, hhi⟩ := Prod.ext_iff.mp hxa
  refine ⟨x, List.mem_filter.mpr ⟨hx, decide_eq_true ⟨?_, ?_⟩⟩, hxa⟩
  · exact hsa.trans_eq hhi.symm
  · exact hlo.trans_le hae

theorem touched_range {x : Stamp} (hx : x ∈ g.touched s e) :
    ∃ a ∈ rq.touching as s e, rq.range a = x.range := by
  obtain ⟨hx, ht⟩ := List.mem_filter.mp hx
  obtain ⟨hsx, hxe⟩ := of_decide_eq_true ht
  obtain ⟨a, ha, hax⟩ := h.exists_block hx
  obtain ⟨hlo, hhi⟩ := Prod.ext_iff.mp hax
  exact ⟨a, mem_touching.mpr ⟨ha, hsx.trans_eq hhi.symm, hlo.trans_le hxe⟩, hax⟩

theorem gensack_eq (m : ℤ) :
    rq.gensack m = (g.stamps.map Stamp.range).take (written m g.stamps.length) := by
  have hlen := congrArg List.length h.ranges
  rw [List.length_map, List.length_map] at hlen
  rw [h.listed.gensack_eq, h.ranges, hlen]

/-- The stamp of the new block has its bounds. -/
theorem merged_range {lo hi : TcpSeq} (hh : Hull rq (rq.touching as s e) s e lo hi) :
    (g.merged s e).range = (lo, hi) := by
  refine Prod.ext (le_antisymm (foldr_min_le ?_) (le_foldr_min hh.lo_le fun y hy => ?_))
    (le_antisymm (foldr_max_le hh.le_hi fun y hy => ?_) (le_foldr_max ?_))
  · refine hh.lo_eq.imp_right fun ⟨a, ha, hlo⟩ => ?_
    obtain ⟨x, hx, hxa⟩ := h.touching_range ha
    exact List.mem_map.mpr ⟨x, hx, (Prod.ext_iff.mp hxa).1.trans hlo.symm⟩
  · obtain ⟨x, hx, rfl⟩ := List.mem_map.mp hy
    obtain ⟨a, ha, hax⟩ := h.touched_range hx
    exact (hh.lo_le_of_mem a ha).trans_eq (Prod.ext_iff.mp hax).1
  · obtain ⟨x, hx, rfl⟩ := List.mem_map.mp hy
    obtain ⟨a, ha, hax⟩ := h.touched_range hx
    exact (Prod.ext_iff.mp hax).2.symm.trans_le (hh.le_hi_of_mem a ha)
  · refine hh.hi_eq.imp_right fun ⟨a, ha, hhi⟩ => ?_
    obtain ⟨x, hx, hxa⟩ := h.touching_range ha
    exact List.mem_map.mpr ⟨x, hx, (Prod.ext_iff.mp hxa).2.trans hhi.symm⟩

/-- The block that contains the range is stamped, and the others keep their stamps. -/
theorem reshapes (hr : Reshapes rq as stack s e rq' as' b stack') (hse : s ≤ e)
    (hf : rq.Refreshes s e) (hd : ¬ g.Drops s e) : rq'.Ranks (g.add s e) as' stack' := by
  refine ⟨hr.listed, hr.ordered, ?_, h.dated.add s e⟩
  rw [hr.stack_eq h.listed h.ordered hse hf, Recency.add, if_neg hd, List.map_cons, List.map_cons,
    h.merged_range hr.hull]
  have hrest : (stack.filter fun x => x ∉ rq.touching as s e).map rq'.range =
      (g.stamps.filter fun x => ¬ x.Touches s e).map Stamp.range := by
    let apart : TcpSeq × TcpSeq → Bool := fun r => decide (¬ (s ≤ r.2 ∧ r.1 ≤ e))
    have hsame : (stack.filter fun x => x ∉ rq.touching as s e).map rq'.range =
        (stack.filter fun x => x ∉ rq.touching as s e).map rq.range :=
      List.map_congr_left fun x hx => by
        obtain ⟨hx, hxt⟩ := List.mem_filter.mp hx
        exact hr.ranges x (h.listed.same.mem_iff.mp hx) (of_decide_eq_true hxt)
    have hfilter : stack.filter (fun x => x ∉ rq.touching as s e) =
        stack.filter (apart ∘ rq.range) := List.filter_congr fun x hx => by
      have has := h.listed.same.mem_iff.mp hx
      refine decide_eq_decide.mpr (not_congr ?_)
      rw [mem_touching]
      exact and_iff_right has
    rw [hsame, hfilter, ← List.filter_map, h.ranges, List.filter_map]
    rfl
  rw [hrest]
  rfl

theorem notMem_touching_of_drops (hd : g.Drops s e) : a ∉ rq.touching as s e := fun ha => by
  obtain ⟨x, hx, -⟩ := h.touching_range ha
  rw [hd.2.1] at hx
  exact List.not_mem_nil hx

theorem ignored_of_drops (hd : g.Drops s e) : rq.Ignored as s e := by
  have hnone : ∀ c, c ∉ rq.touching as s e := fun c => h.notMem_touching_of_drops hd
  obtain ⟨hse, -, ⟨x, hx, hxs⟩, y, hy, hys⟩ := hd
  obtain ⟨a, ha, hax⟩ := h.exists_block hx
  obtain ⟨b, hb, hby⟩ := h.exists_block hy
  refine ⟨hse, ⟨a, ha, (Prod.ext_iff.mp hax).1.trans_lt hxs⟩,
    ⟨b, hb, hys.trans_eq (Prod.ext_iff.mp hby).2.symm⟩, fun c hc hcs => ?_⟩
  exact hnone c (mem_touching.mpr ⟨hc, hcs.2.le, hse ▸ hcs.1.le⟩)

theorem drops_of_ignored (hi : rq.Ignored as s e) (ht : ∀ a, a ∉ rq.touching as s e) :
    g.Drops s e := by
  obtain ⟨hse, ⟨a, ha, has⟩, ⟨b, hb, hbs⟩, -⟩ := hi
  obtain ⟨x, hx, hxa⟩ := h.exists_stamp ha
  obtain ⟨y, hy, hyb⟩ := h.exists_stamp hb
  refine ⟨hse, List.eq_nil_iff_forall_not_mem.mpr fun z hz => ?_,
    ⟨x, hx, (Prod.ext_iff.mp hxa).1.trans_lt has⟩, y, hy, hbs.trans_eq (Prod.ext_iff.mp hyb).2.symm⟩
  obtain ⟨c, hc, -⟩ := h.touched_range hz
  exact ht c hc

/-- An `add` leaves the block that contains the range on top, unless it is not stored. -/
theorem add (hse : s ≤ e) (hf : rq.Refreshes s e) (f : TcpFlag) (rqflags : RqFlag) :
    ∃ rq' flags as' stack', rq.add s e f rqflags = .ok (rq', flags) ∧
      rq'.Ranks (g.add s e) as' stack' ∧
      (g.Drops s e ∧ as' = as ∧ rq'.range = rq.range ∨
        ¬ g.Drops s e ∧ ∃ b ∈ as', rq'.startseq b ≤ s ∧ e ≤ rq'.endseq b) := by
  by_cases hi : rq.Ignored as s e
  · obtain ⟨a, hok⟩ := h.listed.add_ignored h.ordered hi f rqflags
    by_cases ht : ∃ b, b ∈ rq.touching as s e
    · obtain ⟨b, hb⟩ := ht
      have hr : Reshapes rq as stack s e (rq.advance a) as b stack :=
        hi.reshapes h.listed h.ordered hb
      have hd : ¬ g.Drops s e := fun hd => h.notMem_touching_of_drops hd hb
      exact ⟨_, _, as, stack, hok, h.reshapes hr hse hf hd,
        .inr ⟨hd, b, hr.mem, hr.hull.lo_le, hr.hull.le_hi⟩⟩
    · have hd := h.drops_of_ignored hi (not_exists.mp ht)
      have hadd : (g.add s e).stamps = g.stamps := if_pos hd
      exact ⟨_, _, as, stack, hok, ⟨h.listed.congr rfl rfl rfl rfl, h.ordered, hadd ▸ h.ranges,
        h.dated.add s e⟩, .inl ⟨hd, rfl, rfl⟩⟩
  · have hdang := hf.1
    rw [h.listed.blocks_eq] at hdang
    obtain ⟨rq', flags, hok, b, stack', he⟩ := h.listed.add h.ordered hse hdang hi f rqflags
    have hr := he.reshapes h.ordered hse
    have hd : ¬ g.Drops s e := fun hd => hi (h.ignored_of_drops hd)
    exact ⟨rq', flags, _, stack', hok, h.reshapes hr hse hf hd,
      .inr ⟨hd, b, hr.mem, hr.hull.lo_le, hr.hull.le_hi⟩⟩

theorem clearto (seq : TcpSeq) :
    ∃ rq' flags as' stack', rq.clearto seq = .ok (rq', flags) ∧
      rq'.Ranks (g.clearto seq) as' stack' := by
  obtain ⟨rq', flags, hok, hc⟩ := h.listed.clearto h.ordered seq
  refine ⟨rq', flags, _, _, hok, hc.listed, hc.ordered h.ordered, ?_, h.dated.clearto seq⟩
  let cut : TcpSeq × TcpSeq → TcpSeq × TcpSeq := fun r => (max r.1 seq, r.2)
  let goesOn : TcpSeq × TcpSeq → Bool := fun r => decide (seq < r.2)
  have hcut : (stack.filter fun x => seq < rq.endseq x).map rq'.range =
      (stack.filter (goesOn ∘ rq.range)).map (cut ∘ rq.range) := List.map_congr_left fun x hx => by
    obtain ⟨hx, hs⟩ := List.mem_filter.mp hx
    have has := h.listed.same.mem_iff.mp hx
    exact Prod.ext (hc.startseq x has (of_decide_eq_true hs)) (congrFun hc.endseq x)
  rw [hcut, ← List.map_map, ← List.filter_map, h.ranges, List.filter_map, List.map_map,
    Recency.clearto, List.map_map]
  rfl

end Ranks

theorem Threaded.ranks_nil (h : rq.Threaded []) (t : ℕ) : rq.Ranks ⟨t, []⟩ [] [] := by
  obtain ⟨stack, hs, hp⟩ := h.stacked
  obtain rfl := hp.eq_nil
  exact ⟨⟨h.linked, hs, hp⟩, ⟨by simp, .nil⟩, rfl, ⟨by simp, .nil⟩⟩

end ReassemblyQueue

namespace RqCall

/-- What a call does to the stamps. -/
def stamp (rq : ReassemblyQueue) (g : Recency) : RqCall → Recency
  | .add sseq eseq _ _ => g.add sseq eseq
  | .clearto seq => g.clearto seq
  | .cleartonxt => g.clearto rq.rcvNxt
  | .clear | .init _ => { g with stamps := [] }

/-- The call leaves the block it adds to on top. -/
def Refreshes (rq : ReassemblyQueue) : RqCall → Prop
  | .add sseq eseq _ _ => rq.Refreshes sseq eseq
  | _ => True

instance (rq : ReassemblyQueue) : DecidablePred (Refreshes rq)
  | .add sseq eseq _ _ => inferInstanceAs (Decidable (rq.Refreshes sseq eseq))
  | .clearto _ | .cleartonxt | .clear | .init _ => inferInstanceAs (Decidable True)

end RqCall

/-- The reassembly queue beside the stamps of its blocks. -/
def stamped (rcvnxt : TcpSeq) : Machine (ReassemblyQueue × Recency) RqCall RqError :=
  (segments rcvnxt).withHistory ⟨0, []⟩ fun rq c _ g => c.stamp rq g

/-- The runs in which every call leaves the block it adds to on top. -/
def refreshing (rcvnxt : TcpSeq) : Machine (ReassemblyQueue × Recency) RqCall RqError :=
  (stamped rcvnxt).restrict fun p c => c.Refreshes p.1

instance (p : ReassemblyQueue × Recency) (c : RqCall) : Decidable ((stamped rcvnxt).Enabled p c) :=
  inferInstanceAs (Decidable c.Proper)

instance (p : ReassemblyQueue × Recency) (c : RqCall) :
    Decidable ((refreshing rcvnxt).Enabled p c) :=
  inferInstanceAs (Decidable (c.Proper ∧ c.Refreshes p.1))

open ReassemblyQueue

/-- Every call that leaves its block on top succeeds and keeps the LIFO in the order of the
stamps. -/
theorem ReassemblyQueue.Ranks.step {rq : ReassemblyQueue} {g : Recency} {as stack : List ℕ}
    {c : RqCall} (h : rq.Ranks g as stack) (hc : c.Proper) (hf : c.Refreshes rq) :
    ∃ rq' as' stack', c.step rq = .ok rq' ∧ rq'.Ranks (c.stamp rq g) as' stack' := by
  cases c with
  | add sseq eseq tiflags rqflags =>
    obtain ⟨rq', flags, as', stack', hok, h', -⟩ := h.add hc hf tiflags rqflags
    exact ⟨rq', as', stack', by rw [RqCall.step, hok]; rfl, h'⟩
  | clearto seq =>
    obtain ⟨rq', flags, as', stack', hok, h'⟩ := h.clearto seq
    exact ⟨rq', as', stack', by rw [RqCall.step, hok]; rfl, h'⟩
  | cleartonxt =>
    obtain ⟨rq', flags, as', stack', hok, h'⟩ := h.clearto rq.rcvNxt
    exact ⟨rq', as', stack', by rw [RqCall.step, cleartonxt, hok]; rfl, h'⟩
  | clear =>
    obtain ⟨rq', hok, hh, -⟩ := h.listed.threaded.clear
    exact ⟨rq', [], [], hok, hh.threaded.ranks_nil g.clock⟩
  | init rcvnxt =>
    have hl : ({ rq with rcvNxt := rcvnxt }).Listed as stack := h.listed.congr rfl rfl rfl rfl
    obtain ⟨rq', hok, hh, -⟩ := hl.threaded.clear
    exact ⟨rq', [], [], hok, hh.threaded.ranks_nil g.clock⟩

theorem refreshing_invariant :
    (refreshing rcvnxt).Invariant fun p => ∃ as stack, p.1.Ranks p.2 as stack where
  init p hi := by
    obtain ⟨hf, hg⟩ := hi
    rw [hg]
    exact ⟨[], [], hf.holds.threaded.ranks_nil 0⟩
  step p c p' h he hs := by
    obtain ⟨as, stack, h⟩ := h
    have hs : (stamped rcvnxt).step p c = .ok p' := hs
    obtain ⟨hs, hg⟩ := (Machine.withHistory_step_iff _).mp hs
    obtain ⟨rq', as', stack', hok, h'⟩ := h.step he.1 he.2
    obtain rfl : rq' = p'.1 := Except.ok.inj (hok.symm.trans hs)
    rw [hg]
    exact ⟨as', stack', h'⟩

/-- From an empty queue on, in a run in which every call leaves the block it adds to on top, the
stamps are those of the blocks of the queue, no two of which are the same, and `gensack` writes
them from the latest on. Every call that leaves its block on top succeeds, and after an `add` the
first block that is written contains the range, if the queue does. -/
theorem sacks_recent {p : ReassemblyQueue × Recency} (h : (refreshing rcvnxt).Reachable p) :
    (∀ m, p.1.gensack m =
        (p.2.stamps.map Stamp.range).take (written m p.2.stamps.length)) ∧
      p.2.stamps.Pairwise (fun x y => y.time < x.time) ∧
      (p.2.stamps.map Stamp.range).Perm (p.1.blocks.map p.1.range) ∧
      (p.1.blocks.map p.1.range).Nodup ∧
      (∀ c : RqCall, c.Proper → c.Refreshes p.1 → ∃ rq', c.step p.1 = .ok rq' ∧
        (refreshing rcvnxt).Reachable (rq', c.stamp p.1 p.2)) ∧
      ∀ s e f rqflags, s ≤ e → p.1.Refreshes s e → ∃ rq' flags,
        p.1.add s e f rqflags = .ok (rq', flags) ∧
        (s < e → ∃ b ∈ rq'.blocks, rq'.startseq b ≤ s ∧ e ≤ rq'.endseq b) ∧
        ((∃ b ∈ rq'.blocks, rq'.startseq b ≤ s ∧ e ≤ rq'.endseq b) → ∀ m, m ≠ 0 →
          ∃ r ∈ (rq'.gensack m).head?, r.1 ≤ s ∧ e ≤ r.2) := by
  obtain ⟨as, stack, hr⟩ := refreshing_invariant.reachable h
  have hblocks := hr.listed.blocks_eq
  refine ⟨hr.gensack_eq, hr.dated.sorted, ?_, ?_, fun c hc hf => ?_,
    fun s e f rqflags hse hf => ?_⟩
  · rw [← hr.ranges, hblocks]
    exact hr.listed.same.map _
  · rw [hblocks]
    refine hr.listed.threaded.nodup.map_on fun a ha b hb hab => ?_
    obtain ⟨hlo, hhi⟩ := Prod.ext_iff.mp hab
    rcases hr.ordered.eq_or_lt ha hb with hab | hab | hba
    · exact hab
    · exact absurd (hlo.ge.trans (hr.ordered.le a ha)) hab.not_ge
    · exact absurd (hlo.le.trans (hr.ordered.le b hb)) hba.not_ge
  · obtain ⟨rq', as', stack', hok, -⟩ := hr.step hc hf
    have hstep : (stamped rcvnxt).step p c = .ok (rq', c.stamp p.1 p.2) :=
      (Machine.withHistory_step_iff _).mpr ⟨hok, rfl⟩
    exact ⟨rq', hok, h.step ⟨hc, hf⟩ hstep⟩
  · obtain ⟨rq', flags, as', stack', hok, hr', hcases⟩ := hr.add hse hf f rqflags
    refine ⟨rq', flags, hok, fun hlt => ?_, fun hb m hm => ?_⟩
    · rw [hr'.listed.blocks_eq]
      rcases hcases with ⟨hd, -⟩ | ⟨-, hb⟩
      · exact absurd hd.1 hlt.ne
      · exact hb
    · obtain ⟨b, hb, hbs, heb⟩ := hb
      rw [hr'.listed.blocks_eq] at hb
      rcases hcases with ⟨hd, rfl, hrange⟩ | ⟨hd, -⟩
      · obtain ⟨hlo, hhi⟩ := Prod.ext_iff.mp (congrFun hrange b)
        exact absurd (mem_touching.mpr ⟨hb, (hse.trans heb).trans_eq hhi,
          hlo.symm.trans_le (hbs.trans hse)⟩) (hr.notMem_touching_of_drops hd)
      · rw [hr'.gensack_eq, Recency.add, if_neg hd, List.map_cons, List.length_cons,
          written_succ hm, List.take_succ_cons]
        exact ⟨_, rfl, p.2.merged_contains s e⟩

/-- A block that is extended while it is on top, and one that is added after it. -/
theorem sacks_recent_three : ∃ p, (refreshing 0).Reachable p ∧
    p.1.gensack 2 = [(8, 9), (1, 3)] ∧
    p.1.gensack 2 = (p.2.stamps.map Stamp.range).take (written 2 p.2.stamps.length) ∧
    p.2.stamps.map Stamp.time = [3, 2, 0] := by
  obtain ⟨p, h, hp⟩ := (Machine.Reachable.init (M := refreshing 0)
    (s := (⟨⟨fun _ => none, fun _ => none, none, none⟩, ⟨fun _ => none, fun _ => none, none, none⟩,
      fun _ => 0, fun _ => 0, fun _ => 0, fun _ => 0, fun _ => 0, none, 0, none, 0, 0⟩, ⟨0, []⟩))
    ⟨⟨rfl, rfl, rfl, rfl, rfl, rfl, [], rfl, List.nodup_nil, by simp⟩, rfl⟩).exists_of_exec
    [.add 5 6 0 0, .add 1 2 0 0, .add 2 3 0 0, .add 8 9 0 0]
    (fun p => p.1.gensack 2 = [(8, 9), (1, 3)] ∧ p.2.stamps.map Stamp.time = [3, 2, 0])
    (by decide +kernel)
  obtain ⟨hs, ht⟩ := of_decide_eq_true hp
  exact ⟨p, h, hs, (sacks_recent h).1 2, ht⟩

/-- A block that is extended while another one is on top stays below it. -/
theorem sacks_stale : ∃ p rq' flags, (stamped 0).Reachable p ∧
    p.1.add 2 3 0 0 = .ok (rq', flags) ∧ (∃ b ∈ rq'.blocks, rq'.startseq b ≤ 2 ∧ 3 ≤ rq'.endseq b) ∧
    rq'.gensack 3 = [(5, 6), (1, 3)] := by
  obtain ⟨p, h, hp⟩ := (Machine.Reachable.init (M := stamped 0)
    (s := (⟨⟨fun _ => none, fun _ => none, none, none⟩, ⟨fun _ => none, fun _ => none, none, none⟩,
      fun _ => 0, fun _ => 0, fun _ => 0, fun _ => 0, fun _ => 0, none, 0, none, 0, 0⟩, ⟨0, []⟩))
    ⟨⟨rfl, rfl, rfl, rfl, rfl, rfl, [], rfl, List.nodup_nil, by simp⟩, rfl⟩).exists_of_exec
    [.add 1 2 0 0, .add 5 6 0 0]
    (fun p => (p.1.add 2 3 0 0).toOption.any (fun r => (∃ b ∈ r.1.blocks, r.1.startseq b ≤ 2 ∧
      3 ≤ r.1.endseq b) ∧ r.1.gensack 3 = [(5, 6), (1, 3)]))
    (by decide +kernel)
  obtain ⟨r, hok, hb, hs⟩ := exists_of_toOption_any hp
  exact ⟨p, r.1, r.2, h, hok, hb, hs⟩

end Ns2XPass
