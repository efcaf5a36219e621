import Mathlib.Algebra.BigOperators.Intervals
import Mathlib.Algebra.Group.Action.Defs
import Mathlib.Data.Nat.Bits
import Ns2XPass.Queue.MatrixShape

/-! # Rounds of the weight matrix

From the end of a column on, the nodes come in the order of the columns that the
weight spread sequence lists. A round of the sequence lists the column `c` as
often as `2 ^ c`, so that a queue is met as often as its weight.
-/

namespace Ns2XPass

/-- The elements after `q`. -/
def after : List ℕ → ℕ → List ℕ
  | [], _ => []
  | x :: xs, q => if x = q then xs else after xs q

variable {l r : List ℕ} {q x c : ℕ}

theorem follower_eq (l : List ℕ) (q : ℕ) : follower l q = (after l q).head? := by
  induction l with
  | nil => rfl
  | cons x l ih =>
    rw [follower, after]
    split_ifs
    · rfl
    · exact ih

theorem mem_of_after (h : after l q = x :: r) : x ∈ l :=
  mem_of_follower ((follower_eq l q).trans (congrArg List.head? h))

theorem after_of_after (hd : l.Nodup) (h : after l q = x :: r) : after l x = r := by
  induction l with
  | nil => cases h
  | cons y l ih =>
    obtain ⟨hy, hd⟩ := List.nodup_cons.mp hd
    rw [after] at h ⊢
    split_ifs at h with hq
    · have hx : x ∈ l := h ▸ List.mem_cons_self
      rw [if_neg (ne_of_mem_of_not_mem hx hy).symm, h, after, if_pos rfl]
    · rw [if_neg (ne_of_mem_of_not_mem (mem_of_after h) hy).symm]
      exact ih hd h

namespace WeightMatrix

variable {m m' : WeightMatrix} {w : ℕ → ℕ} {node : WmNode}

/-- The queues whose nodes become the current one, one after the other. -/
inductive Walk : WeightMatrix → List ℕ → WeightMatrix → Prop
  | nil (m : WeightMatrix) : Walk m [] m
  | cons {m m₁ m₂ : WeightMatrix} {node : WmNode} {l : List ℕ} : m.getNextNode = .ok m₁ →
      m₁.pwmCurr = some node → Walk m₁ l m₂ → Walk m (node.queueid :: l) m₂

theorem Walk.trans {m₁ m₂ : WeightMatrix} {l₁ l₂ : List ℕ} (h₁ : m.Walk l₁ m₁)
    (h₂ : m₁.Walk l₂ m₂) : m.Walk (l₁ ++ l₂) m₂ := by
  induction h₁ with
  | nil => exact h₂
  | cons hnext hnode _ ih => exact .cons hnext hnode (ih h₂)

/-- The current node is the last one of its column. -/
def AtEnd (m : WeightMatrix) : Prop :=
  ∀ node ∈ m.pwmCurr, after (m.columns node.weight) node.queueid = []

instance (m : WeightMatrix) : Decidable m.AtEnd :=
  inferInstanceAs (Decidable (∀ node ∈ m.pwmCurr, _ = []))

/-- What the walk meets in the columns of the next `n` terms of the sequence. -/
def coming : ℕ → WeightMatrix → List ℕ
  | 0, _ => []
  | n + 1, m => m.columns m.term ++ coming n m.forward

/-! ## One step -/

theorem getNextNode_of_after (hnode : m.pwmCurr = some node)
    (ha : after (m.columns node.weight) node.queueid = x :: r) :
    m.getNextNode = .ok { m with pwmCurr := some ⟨x, node.weight⟩ } := by
  unfold getNextNode
  rw [hnode]
  dsimp only
  rw [follower_eq, ha]
  rfl

theorem getNextNode_of_end (hnode : m.pwmCurr = some node) (hend : m.AtEnd) (ho : 0 < m.order) :
    m.getNextNode = seekColumn seekSteps m := by
  unfold getNextNode
  rw [hnode]
  dsimp only
  rw [follower_eq, hend node hnode]
  exact if_neg ho.ne'

/-- More steps do not change what is found. -/
theorem seekColumn_mono {n : ℕ} (h : seekColumn n m = .ok m') : seekColumn (n + 1) m = .ok m' := by
  induction n generalizing m with
  | zero => cases h
  | succ n ih =>
    rw [seekColumn] at h ⊢
    split_ifs at h ⊢
    dsimp only at h ⊢
    split at h
    · exact h
    · exact ih h

theorem columns_of_seekColumn {n : ℕ} (h : seekColumn n m = .ok m') :
    m'.columns = m.columns ∧ m'.order = m.order := by
  induction n generalizing m with
  | zero => cases h
  | succ n ih =>
    rw [seekColumn] at h
    split_ifs at h
    dsimp only at h
    split at h
    · obtain rfl := Except.ok.inj h
      exact ⟨rfl, rfl⟩
    · exact ih (m := m.forward) h

/-- The nodes stay where they are. -/
theorem columns_of_getNextNode (h : m.getNextNode = .ok m') :
    m'.columns = m.columns ∧ m'.order = m.order := by
  unfold getNextNode at h
  split at h
  · cases h
  · split at h
    · obtain rfl := Except.ok.inj h
      exact ⟨rfl, rfl⟩
    · split_ifs at h
      exact columns_of_seekColumn h

namespace Filed

variable (h : m.Filed w) (ho : 0 < m.order)
include h ho

theorem getNextNode_cons (hnode : m.pwmCurr = some node) (hend : m.AtEnd)
    (hcol : m.columns m.term = x :: r) :
    m.getNextNode = .ok { m.forward with pwmCurr := some ⟨x, m.term⟩ } := by
  rw [getNextNode_of_end hnode hend ho, seekSteps, seekColumn_succ 1 (h.ptr ho), hcol]

/-- A column without nodes is skipped. -/
theorem getNextNode_nil (hnode : m.pwmCurr = some node) (hend : m.AtEnd)
    (hcol : m.columns m.term = []) : m.getNextNode = m.forward.getNextNode := by
  obtain ⟨m', hm', -⟩ := h.seek ho
  rw [getNextNode_of_end hnode hend ho,
    getNextNode_of_end (m := m.forward) hnode (fun node hnode => hend node hnode) ho, hm']
  rw [seekSteps, seekColumn_succ 1 (h.ptr ho), hcol] at hm'
  exact (seekColumn_mono hm').symm

end Filed

/-! ## Whole columns -/

theorem coming_curr (m : WeightMatrix) (n : ℕ) (curr : Option WmNode) :
    coming n { m with pwmCurr := curr } = coming n m := by
  induction n generalizing m with
  | zero => rfl
  | succ n ih => exact congrArg (m.columns m.term ++ ·) (ih m.forward)

namespace Walk

variable {n : ℕ}

/-- The walk leaves the rest of the column behind. -/
theorem rest (hw : m.Walk l m') (h : m.Filed w) (hnode : m.pwmCurr = some node)
    (ha : after (m.columns node.weight) node.queueid = r) (hl : r.length ≤ l.length) :
    ∃ l' last, l = r ++ l' ∧ ({ m with pwmCurr := some last } : WeightMatrix).Walk l' m' ∧
      ({ m with pwmCurr := some last } : WeightMatrix).Filed w ∧
      ({ m with pwmCurr := some last } : WeightMatrix).AtEnd := by
  induction r generalizing m l node with
  | nil =>
    have heq : ({ m with pwmCurr := some node } : WeightMatrix) = m := by rw [← hnode]
    refine ⟨l, node, rfl, heq.symm ▸ hw, heq.symm ▸ h, fun node' hnode' => ?_⟩
    obtain rfl := Option.some.inj hnode'
    exact ha
  | cons x r ih =>
    have hnext := getNextNode_of_after hnode ha
    cases hw with
    | nil => cases hl
    | cons hstep hnode₁ hw =>
      obtain rfl := Except.ok.inj (hnext.symm.trans hstep)
      obtain rfl := Option.some.inj hnode₁
      obtain ⟨l', last, rfl, hlast⟩ := ih hw (h.found (mem_of_after ha)).toFiled rfl
        (after_of_after (h.nodup _) ha) (Nat.le_of_succ_le_succ hl)
      exact ⟨l', last, rfl, hlast⟩

theorem skip (hw : m.Walk l m') (hnext : m.getNextNode = m.forward.getNextNode) (hl : l ≠ []) :
    m.forward.Walk l m' := by
  cases hw with
  | nil => exact absurd rfl hl
  | cons hstep hnode hw => exact .cons (hnext.symm.trans hstep) hnode hw

/-- The walk meets the columns that come next. -/
theorem eq_coming (hw : m.Walk l m') (h : m.Filed w) (ho : 0 < m.order)
    (hsome : m.pwmCurr.isSome = true) (hend : m.AtEnd) (hl : (coming n m).length ≤ l.length) :
    ∃ l', l = coming n m ++ l' := by
  induction n generalizing m l with
  | zero => exact ⟨l, rfl⟩
  | succ n ih =>
    obtain ⟨node, hnode⟩ := Option.isSome_iff_exists.mp hsome
    have hf := h.forward ho
    rw [coming] at hl ⊢
    cases hcol : m.columns m.term with
    | nil =>
      rw [hcol, List.nil_append] at hl
      rcases eq_or_ne l [] with rfl | hne
      · have hnil : coming n m.forward = [] :=
          List.eq_nil_of_length_eq_zero (Nat.le_zero.mp hl)
        exact ⟨[], by rw [hnil]; rfl⟩
      · exact ih (hw.skip (h.getNextNode_nil ho hnode hend hcol) hne) hf ho hsome
          (fun node hnode => hend node hnode) hl
    | cons x r =>
      have hnext := h.getNextNode_cons ho hnode hend hcol
      rw [hcol, List.cons_append, List.length_cons, List.length_append] at hl
      cases hw with
      | nil => cases hl
      | @cons _ _ _ _ l hstep hnode₁ hw =>
        obtain rfl := Except.ok.inj (hnext.symm.trans hstep)
        obtain rfl := Option.some.inj hnode₁
        have ha : after (m.columns m.term) x = r := by rw [hcol, after, if_pos rfl]
        have hx : x ∈ m.columns m.term := hcol ▸ List.mem_cons_self
        rw [List.length_cons] at hl
        obtain ⟨l', last, rfl, hw', hlast, hend'⟩ :=
          hw.rest (hf.found hx).toFiled rfl ha (by omega)
        have hcoming := m.forward.coming_curr n (some last)
        obtain ⟨l'', hl''⟩ := ih hw' hlast ho rfl hend' <| by
          change (coming n { m.forward with pwmCurr := some last }).length ≤ l'.length
          rw [hcoming]
          rw [List.length_append] at hl
          omega
        refine ⟨l'', ?_⟩
        change l' = coming n { m.forward with pwmCurr := some last } ++ l'' at hl''
        rw [hl'', hcoming, List.cons_append, ← List.append_assoc]
        rfl

end Walk

/-! ## A round -/

/-- The column of a term of the sequence. -/
def listed (m : WeightMatrix) (k : ℕ) : List ℕ := m.columns (m.order - 1 - k)

/-- The nodes that a round of the sequence meets. -/
def roundLength (m : WeightMatrix) : ℕ :=
  ∑ c ∈ Finset.range m.order, 2 ^ c * (m.columns c).length

theorem coming_add (m : WeightMatrix) (a b : ℕ) :
    coming (a + b) m = coming a m ++ coming b (forward^[a] m) := by
  induction a generalizing m with
  | zero => rw [Nat.zero_add]; rfl
  | succ a ih =>
    rw [Nat.succ_add, coming, coming, ih, Function.iterate_succ_apply, List.append_assoc]

theorem forward_iterate {n : ℕ} (hn : m.ptr + n + 1 < 2 ^ m.order) :
    forward^[n] m = { m with ptr := m.ptr + n } := by
  induction n with
  | zero => rfl
  | succ n ih =>
    rw [Function.iterate_succ_apply', ih (by omega)]
    have hinc : ({ m with ptr := m.ptr + n } : WeightMatrix).incPtr = m.ptr + n + 1 :=
      if_neg (by change ¬ 2 ^ m.order < m.ptr + n + 1 + 2; omega)
    rw [forward, hinc]
    rfl

theorem forward_wrap {n : ℕ} (hn : m.ptr + n + 2 = 2 ^ m.order) :
    forward^[n + 1] m = { m with ptr := 0 } := by
  rw [Function.iterate_succ_apply', forward_iterate (by omega)]
  have hinc : ({ m with ptr := m.ptr + n } : WeightMatrix).incPtr = 0 :=
    if_pos (by change 2 ^ m.order < m.ptr + n + 1 + 2; omega)
  rw [forward, hinc]

namespace Filed

variable (h : m.Filed w) (ho : 0 < m.order)
include h ho

theorem columns_term : (ruler m.order)[m.ptr]?.map m.listed = some (m.columns m.term) := by
  have hptr := h.ptr ho
  have hlen : m.ptr < (ruler m.order).length := by rw [length_ruler]; omega
  have hget := List.getElem?_eq_getElem hlen
  rw [hget]
  have hpwss := pwss_eq hget h.order_le_wss
  change some (m.columns _) = some (m.columns _)
  unfold term
  rw [hpwss, Nat.sub_sub, Nat.add_comm]

/-- The terms up to the end of the round. -/
theorem coming_of_le {n : ℕ} (hn : m.ptr + n < 2 ^ m.order) :
    coming n m = (((ruler m.order).drop m.ptr).take n).flatMap m.listed := by
  induction n generalizing m with
  | zero => rfl
  | succ n ih =>
    have hterm := h.columns_term ho
    obtain ⟨k, hk, hlisted⟩ := Option.map_eq_some_iff.mp hterm
    have hdrop : (ruler m.order).drop m.ptr = k :: (ruler m.order).drop (m.ptr + 1) := by
      obtain ⟨hlen, hget⟩ := List.getElem?_eq_some_iff.mp hk
      rw [List.drop_eq_getElem_cons hlen, hget]
    rw [coming, hdrop, List.take_succ_cons, List.flatMap_cons, hlisted]
    rcases Nat.eq_zero_or_pos n with rfl | hpos
    · rfl
    · have hinc : m.forward.ptr = m.ptr + 1 := if_neg (by omega)
      have hrec := ih (h.forward ho) ho (by rw [hinc]; change _ < 2 ^ m.order; omega)
      rw [hrec, hinc]
      rfl

/-- A round ends where it began. -/
theorem forward_round : WeightMatrix.forward^[2 ^ m.order - 1] m = m := by
  have hptr := h.ptr ho
  obtain ⟨n, hn⟩ : ∃ n, m.ptr + n + 2 = 2 ^ m.order := ⟨2 ^ m.order - m.ptr - 2, by omega⟩
  have hsplit : 2 ^ m.order - 1 = m.ptr + (n + 1) := by omega
  rw [hsplit, Function.iterate_add_apply, forward_wrap hn, forward_iterate, Nat.zero_add]
  change 0 + m.ptr + 1 < 2 ^ m.order
  omega

theorem coming_round :
    (coming (2 ^ m.order - 1) m).Perm ((ruler m.order).flatMap m.listed) := by
  have hptr := h.ptr ho
  obtain ⟨n, hn⟩ : ∃ n, m.ptr + n + 2 = 2 ^ m.order := ⟨2 ^ m.order - m.ptr - 2, by omega⟩
  have hsplit : 2 ^ m.order - 1 = n + 1 + m.ptr := by omega
  have hfirst := h.coming_of_le ho (n := n + 1) (by omega)
  have hzero : ({ m with ptr := 0 } : WeightMatrix).Filed w :=
    ⟨h.congr rfl rfl rfl rfl rfl, h.lt, fun _ => Nat.one_lt_two_pow ho.ne',
      fun _ => rfl⟩
  have hsecond : coming m.ptr { m with ptr := 0 } =
      ((ruler m.order).take m.ptr).flatMap m.listed :=
    hzero.coming_of_le ho (by change 0 + m.ptr < 2 ^ m.order; omega)
  rw [List.take_of_length_le (by rw [List.length_drop, length_ruler]; omega)] at hfirst
  rw [hsplit, coming_add, forward_wrap hn, hfirst, hsecond, ← List.flatMap_append]
  exact (List.perm_append_comm.trans (.of_eq (List.take_append_drop _ _))).flatMap_right _

omit ho in
/-- The first `n` columns of the round give the upper `n` bits of the weight. -/
theorem count_listed {n : ℕ} (hn : n ≤ m.order) (q : ℕ) :
    ((ruler n).flatMap m.listed).count q = w q / 2 ^ (m.order - n) := by
  induction n with
  | zero =>
    have hlt : w q < 2 ^ m.order := Nat.lt_pow_two_of_testBit _ fun c hc => by
      by_contra hbit
      rw [Bool.not_eq_false, ← h.mem_column] at hbit
      exact hc.not_gt (h.order_le c (List.ne_nil_of_mem hbit))
    exact (Nat.div_eq_of_lt hlt).symm
  | succ n ih =>
    have hcount : (m.listed n).count q = w q / 2 ^ (m.order - 1 - n) % 2 := by
      change (m.columns (m.order - 1 - n)).count q = _
      have hbit := h.mem_column (m.order - 1 - n) q
      rw [Nat.testBit_eq_decide_div_mod_eq, decide_eq_true_iff] at hbit
      rw [(h.nodup _).count]
      split_ifs with hm
      · exact (hbit.mp hm).symm
      · have hne := mt hbit.mpr hm
        omega
    have hsub : m.order - n = m.order - 1 - n + 1 := by omega
    have hsub' : m.order - (n + 1) = m.order - 1 - n := by omega
    rw [ruler, List.flatMap_append, List.flatMap_cons, List.count_append, List.count_append,
      ih (by omega), hcount, hsub, hsub', pow_succ, ← Nat.div_div_eq_div_mul]
    omega

omit h ho in
theorem length_listed (m : WeightMatrix) :
    ((ruler m.order).flatMap m.listed).length = m.roundLength := by
  have hsub : (ruler m.order).toFinset ⊆ Finset.range m.order := fun k hk =>
    Finset.mem_range.mpr (lt_of_mem_ruler (List.mem_toFinset.mp hk))
  have hnone : ∀ k ∈ Finset.range m.order, k ∉ (ruler m.order).toFinset →
      (ruler m.order).count k • (m.listed k).length = 0 := fun k _ hk => by
    rw [List.count_eq_zero.mpr fun hm => hk (List.mem_toFinset.mpr hm), smul_eq_mul, zero_mul]
  rw [List.length_flatMap, Finset.sum_list_map_count, Finset.sum_subset hsub hnone, roundLength,
    ← Finset.sum_range_reflect]
  refine Finset.sum_congr rfl fun k hk => ?_
  have hk := Finset.mem_range.mp hk
  have hsub : m.order - 1 - (m.order - 1 - k) = k := by omega
  rw [count_ruler (by omega), smul_eq_mul, listed, hsub]

theorem coming_rounds (k : ℕ) :
    (coming (k * (2 ^ m.order - 1)) m).length = k * m.roundLength ∧
      ∀ q, (coming (k * (2 ^ m.order - 1)) m).count q = k * w q := by
  induction k with
  | zero => simp [coming]
  | succ k ih =>
    have hperm := h.coming_round ho
    rw [Nat.succ_mul, Nat.add_comm, coming_add, h.forward_round ho]
    refine ⟨?_, fun q => ?_⟩
    · rw [List.length_append, ih.1, hperm.length_eq, length_listed, Nat.succ_mul, Nat.add_comm]
    · rw [List.count_append, ih.2, hperm.count_eq, h.count_listed le_rfl, Nat.sub_self, pow_zero,
        Nat.div_one, Nat.succ_mul, Nat.add_comm]

end Filed

/-- From the end of a column on, each queue is met in every round as often as its weight. -/
theorem Walk.count_round (hw : m.Walk l m') (h : m.Sound w) (ho : 0 < m.order) (hend : m.AtEnd)
    (k : ℕ) (hl : l.length = k * m.roundLength) (q : ℕ) : l.count q = k * w q := by
  have hsome : m.pwmCurr.isSome = true := h.current.resolve_left fun hflag =>
    ho.ne' (h.empty.mp hflag)
  obtain ⟨hlen, hcount⟩ := h.toFiled.coming_rounds ho k
  obtain ⟨l', rfl⟩ := hw.eq_coming h.toFiled ho hsome hend (hlen.trans hl.symm).le
  have hnil : l' = [] := List.eq_nil_of_length_eq_zero (by
    rw [List.length_append, hlen] at hl
    omega)
  rw [hnil, List.append_nil, hcount]

end WeightMatrix

end Ns2XPass
