import Mathlib.Data.List.Perm.Basic
import Mathlib.Data.Nat.Bitwise
import Ns2XPass.Queue.WeightMatrix

/-! # The shape of the weight matrix

Every queue has a node in exactly those columns that are bits of its weight, the
last column that is not empty is known, and the pointer of the sequence fits the
number of columns. Adding and removing queues and going on to the next node keep
it so, and none of them fails.
-/

namespace Ns2XPass

variable {l : List ℕ} {q x y n c : ℕ}

theorem insertBefore_perm : (insertBefore l q x).Perm (x :: l) := by
  induction l with
  | nil => exact .refl _
  | cons y l ih =>
    rw [insertBefore]
    split_ifs
    · exact .refl _
    · exact (ih.cons y).trans (.swap x y l)

theorem mem_of_follower (h : follower l q = some y) : y ∈ l := by
  induction l with
  | nil => cases h
  | cons x l ih =>
    rw [follower] at h
    split_ifs at h
    · exact List.mem_cons_of_mem x (List.mem_of_head? h)
    · exact List.mem_cons_of_mem x (ih h)

theorem ne_of_follower (hd : l.Nodup) (h : follower l q = some y) : y ≠ q := by
  induction l with
  | nil => cases h
  | cons x l ih =>
    obtain ⟨hx, hd⟩ := List.nodup_cons.mp hd
    rw [follower] at h
    split_ifs at h with hq
    · exact hq ▸ ne_of_mem_of_not_mem (List.mem_of_head? h) hx
    · exact ih hd h

namespace WeightMatrix

variable {m m' : WeightMatrix} {w w' : ℕ → ℕ}

/-- The nodes of each queue are in the columns of the bits of its weight, which is zero for a queue
that has none. -/
structure Linked (m : WeightMatrix) (w : ℕ → ℕ) : Prop where
  nodup : ∀ c, (m.columns c).Nodup
  mem_column : ∀ c q, q ∈ m.columns c ↔ (w q).testBit c = true
  mem_row : ∀ q c, c ∈ m.rows q ↔ (w q).testBit c = true
  order_le : ∀ c, m.columns c ≠ [] → c < m.order
  top : 0 < m.order → m.columns (m.order - 1) ≠ []
  curr : ∀ node ∈ m.pwmCurr, node.queueid ∈ m.columns node.weight
  empty : m.wmEmptyFlag = true ↔ m.order = 0

namespace Linked

variable (h : m.Linked w)
include h

omit h in
theorem place_perm (q c : ℕ) : (m.place q c).Perm (q :: m.columns c) := by
  unfold place
  split
  · split_ifs
    · exact insertBefore_perm
    · exact List.perm_append_singleton q (m.columns c)
  · exact List.perm_append_singleton q (m.columns c)

/-- A queue gets a node in one more column. -/
theorem addNode (hq : (w q).testBit c = false) :
    (m.addNode q c).Linked (Function.update w q (w q ||| 2 ^ c)) := by
  have hbit : ∀ x d, (Function.update w q (w q ||| 2 ^ c) x).testBit d = true ↔
      (w x).testBit d = true ∨ x = q ∧ d = c := fun x d => by
    rw [Function.update_apply]
    split_ifs with hx
    · subst hx
      rw [Nat.testBit_or, Nat.testBit_two_pow, Bool.or_eq_true, decide_eq_true_iff]
      exact or_congr Iff.rfl ⟨fun hc => ⟨rfl, hc.symm⟩, fun hc => hc.2.symm⟩
    · simp [hx]
  have hnew : q ∉ m.columns c := fun hm => by
    rw [h.mem_column, hq] at hm
    cases hm
  have hmem : ∀ d x, x ∈ (m.addNode q c).columns d ↔ x ∈ m.columns d ∨ x = q ∧ d = c := fun d x => by
    change x ∈ Function.update m.columns c (m.place q c) d ↔ _
    rw [Function.update_apply]
    split_ifs with hd
    · subst hd
      rw [(place_perm q d).mem_iff, List.mem_cons, or_comm]
      simp
    · simp [hd]
  have hcol : (m.addNode q c).columns c ≠ [] :=
    List.ne_nil_of_mem ((hmem c q).mpr (.inr ⟨rfl, rfl⟩))
  have hkeep : ∀ d, m.columns d ≠ [] → (m.addNode q c).columns d ≠ [] := fun d hd => by
    obtain ⟨x, hx⟩ := List.exists_mem_of_ne_nil _ hd
    exact List.ne_nil_of_mem ((hmem d x).mpr (.inl hx))
  refine ⟨fun d => ?_, fun d x => ?_, fun x d => ?_, fun d hd => ?_, fun _ => ?_,
    fun node hnode => ?_, ?_⟩
  · change (Function.update m.columns c (m.place q c) d).Nodup
    rw [Function.update_apply]
    split_ifs
    · exact (place_perm q c).nodup_iff.mpr (List.nodup_cons.mpr ⟨hnew, h.nodup c⟩)
    · exact h.nodup d
  · rw [hmem, hbit, h.mem_column]
  · change d ∈ Function.update m.rows q (m.rows q ++ [c]) x ↔ _
    rw [hbit, Function.update_apply]
    split_ifs with hx
    · subst hx
      simp [h.mem_row]
    · simp [h.mem_row, hx]
  · change d < max m.order (c + 1)
    obtain ⟨x, hx⟩ := List.exists_mem_of_ne_nil _ hd
    rcases (hmem d x).mp hx with hx | ⟨-, rfl⟩
    · exact lt_max_of_lt_left (h.order_le d (List.ne_nil_of_mem hx))
    · exact lt_max_of_lt_right (Nat.lt_succ_self d)
  · change (m.addNode q c).columns (max m.order (c + 1) - 1) ≠ []
    rcases le_or_gt m.order (c + 1) with hle | hgt
    · rw [max_eq_right hle]
      exact hcol
    · rw [max_eq_left hgt.le]
      exact hkeep _ (h.top (by omega))
  · change node ∈ (if m.wmEmptyFlag ∧ m.pwmCurr = none then some ⟨q, c⟩ else m.pwmCurr) at hnode
    split_ifs at hnode
    · obtain rfl := Option.some.inj hnode
      exact (hmem c q).mpr (.inr ⟨rfl, rfl⟩)
    · exact (hmem _ _).mpr (.inl (h.curr node hnode))
  · change false = true ↔ max m.order (c + 1) = 0
    simp

omit h in
theorem congr (h : m.Linked w) (hc : m'.columns = m.columns) (hr : m'.rows = m.rows)
    (hcurr : m'.pwmCurr = m.pwmCurr) (he : m'.wmEmptyFlag = m.wmEmptyFlag)
    (ho : m'.order = m.order) : m'.Linked w := by
  refine ⟨hc ▸ h.nodup, hc ▸ h.mem_column, hr ▸ h.mem_row, ?_, ?_, ?_, ?_⟩
  · rw [hc, ho]; exact h.order_le
  · rw [hc, ho]; exact h.top
  · rw [hc, hcurr]; exact h.curr
  · rw [he, ho]; exact h.empty

/-- The queue gets the nodes of all bits below `n` that it does not have yet. -/
theorem addNodes {k v : ℕ} (hq : ∀ c < n, k.testBit c = true → (w q).testBit c = false)
    (hv : ∀ c, v.testBit c = (decide (c < n) && k.testBit c || (w q).testBit c)) :
    (WeightMatrix.addNodes q k n m).Linked (Function.update w q v) := by
  induction n generalizing m w with
  | zero =>
    have heq : v = w q := Nat.eq_of_testBit_eq fun c => by simp [hv c]
    rwa [heq, Function.update_eq_self]
  | succ n ih =>
    have hcast : (k : ℤ).testBit n = k.testBit n := rfl
    rw [WeightMatrix.addNodes, hcast]
    split_ifs with hbit
    · have h' := h.addNode (hq n (Nat.lt_succ_self n) hbit)
      rw [← Function.update_idem (w q ||| 2 ^ n) v w]
      refine ih h' (fun c hc hk => ?_) fun c => ?_
      · rw [Function.update_self, Nat.testBit_or, Nat.testBit_two_pow, hq c (by omega) hk]
        simp [hc.ne']
      · rw [hv, Function.update_self, Nat.testBit_or, Nat.testBit_two_pow]
        rcases Nat.lt_trichotomy c n with hlt | rfl | hgt
        · simp [hlt, hlt.ne', hlt.trans (Nat.lt_succ_self n)]
        · simp [hbit]
        · simp [hgt.not_gt, hgt.ne, show ¬ c < n + 1 by omega]
    · refine ih h (fun c hc hk => hq c (by omega) hk) fun c => ?_
      rw [hv]
      rcases Nat.lt_trichotomy c n with hlt | rfl | hgt
      · simp [hlt, hlt.trans (Nat.lt_succ_self n)]
      · simp [hbit]
      · simp [hgt.not_gt, show ¬ c < n + 1 by omega]

end Linked

/-- A node is the current one, unless the matrix is empty. -/
def Current (m : WeightMatrix) : Prop := m.wmEmptyFlag = true ∨ m.pwmCurr.isSome = true

theorem Current.addNode (h : m.Current) (q c : ℕ) : (m.addNode q c).Current := by
  refine .inr ?_
  change (if m.wmEmptyFlag ∧ m.pwmCurr = none then some ⟨q, c⟩ else m.pwmCurr).isSome = true
  split_ifs with hempty
  · rfl
  · rcases h with hflag | hsome
    · exact Option.isSome_iff_ne_none.mpr fun hnone => hempty ⟨hflag, hnone⟩
    · exact hsome

theorem Current.addNodes (h : m.Current) (q : ℕ) (weight : ℤ) (n : ℕ) :
    (addNodes q weight n m).Current := by
  induction n generalizing m with
  | zero => exact h
  | succ n ih =>
    rw [WeightMatrix.addNodes]
    split_ifs
    · exact ih (h.addNode q n)
    · exact ih h

theorem addNodes_frame (q : ℕ) (weight : ℤ) (n : ℕ) (m : WeightMatrix) :
    m.order ≤ (addNodes q weight n m).order ∧
      ∀ node, m.pwmCurr = some node → (addNodes q weight n m).pwmCurr = some node := by
  induction n generalizing m with
  | zero => exact ⟨le_rfl, fun _ hnode => hnode⟩
  | succ n ih =>
    rw [addNodes]
    obtain ⟨hle, hcurr⟩ := ih (if weight.testBit n then m.addNode q n else m)
    split_ifs at hle hcurr ⊢
    · refine ⟨(le_max_left ..).trans hle, fun node hnode => hcurr node ?_⟩
      exact (if_neg fun hnone => by rw [hnode] at hnone; cases hnone.2).trans hnode
    · exact ⟨hle, hcurr⟩

/-- The nodes are linked, and the pointer is a place of the sequence. -/
structure Filed (m : WeightMatrix) (w : ℕ → ℕ) : Prop extends m.Linked w where
  lt : ∀ q, w q < 2 ^ maxWssOrder
  ptr : 0 < m.order → m.ptr + 1 < 2 ^ m.order
  ptr_zero : m.order = 0 → m.ptr = 0

structure Sound (m : WeightMatrix) (w : ℕ → ℕ) : Prop extends m.Filed w where
  current : m.Current

/-- The column that comes first in the sequence, and the matrix with the pointer after it. -/
def term (m : WeightMatrix) : ℕ := m.order - pwss m.ptr

def forward (m : WeightMatrix) : WeightMatrix := { m with ptr := m.incPtr }

theorem seekColumn_succ (n : ℕ) (hptr : m.ptr + 1 < 2 ^ m.order) :
    seekColumn (n + 1) m =
      match m.columns m.term with
      | q :: _ => .ok { m.forward with pwmCurr := some ⟨q, m.term⟩ }
      | [] => seekColumn n m.forward := by
  rw [seekColumn, if_neg (by omega)]
  rfl

theorem sound_empty : ({} : WeightMatrix).Sound fun _ => 0 where
  nodup _ := List.nodup_nil
  mem_column c q := iff_of_false List.not_mem_nil (by rw [Nat.zero_testBit]; decide)
  mem_row q c := iff_of_false List.not_mem_nil (by rw [Nat.zero_testBit]; decide)
  order_le _ hc := absurd rfl hc
  top ho := absurd ho (lt_irrefl 0)
  curr _ hnode := absurd hnode (Option.not_mem_none _)
  empty := iff_of_true rfl rfl
  lt _ := Nat.two_pow_pos _
  ptr ho := absurd ho (lt_irrefl 0)
  ptr_zero _ := rfl
  current := .inl rfl

namespace Filed

variable (h : m.Filed w)
include h

theorem order_le_wss : m.order ≤ maxWssOrder := by
  rcases Nat.eq_zero_or_pos m.order with ho | ho
  · omega
  · obtain ⟨x, hx⟩ := List.exists_mem_of_ne_nil _ (h.top ho)
    have hbit := (h.mem_column _ x).mp hx
    by_contra hgt
    have hpow : w x < 2 ^ (m.order - 1) :=
      (h.lt x).trans_le (Nat.pow_le_pow_right two_pos (by omega))
    rw [Nat.testBit_lt_two_pow hpow] at hbit
    cases hbit

theorem scaleUp_lt {order : ℕ} (hle : m.order ≤ order) (ho : 0 < order) :
    m.scaleUp order + 1 < 2 ^ order := by
  unfold scaleUp
  split_ifs with hgrow
  · obtain ⟨d, rfl⟩ := Nat.exists_eq_add_of_lt hgrow.1
    have hptr := h.ptr hgrow.2
    have hd : m.order + d + 1 - m.order = d + 1 := by omega
    have hpow : 2 ^ (m.order + d + 1) = 2 ^ m.order * 2 ^ (d + 1) := by rw [add_assoc, pow_add]
    have hmul : (m.ptr + 1) * 2 ^ (d + 1) < 2 ^ m.order * 2 ^ (d + 1) :=
      Nat.mul_lt_mul_of_pos_right hptr (Nat.two_pow_pos _)
    have hpos : 0 < (m.ptr + 1) * 2 ^ (d + 1) :=
      Nat.mul_pos (Nat.succ_pos _) (Nat.two_pow_pos _)
    rw [hd, hpow]
    omega
  · rcases Nat.eq_zero_or_pos m.order with hzero | hpos
    · rw [h.ptr_zero hzero]
      exact Nat.one_lt_two_pow ho.ne'
    · have heq : order = m.order := by
        by_contra hne
        exact hgrow ⟨lt_of_le_of_ne hle (Ne.symm hne), hpos⟩
      rw [heq]
      exact h.ptr hpos

theorem forward (ho : 0 < m.order) : m.forward.Filed w := by
  have hptr := h.ptr ho
  refine ⟨h.congr rfl rfl rfl rfl rfl, h.lt, fun _ => ?_, fun hzero => ?_⟩
  · change m.incPtr + 1 < 2 ^ m.order
    unfold incPtr
    split_ifs
    · exact Nat.one_lt_two_pow ho.ne'
    · omega
  · exact absurd hzero ho.ne'

theorem scaleDown_lt {order : ℕ} (hpos : 0 < order) (hle : order ≤ m.order) :
    m.scaleDown order + 1 < 2 ^ order := by
  have hptr := h.ptr (hpos.trans_le hle)
  unfold scaleDown
  split_ifs with hlt
  · obtain ⟨d, hd⟩ := Nat.exists_eq_add_of_lt hlt
    have hsub : m.order - order = d + 1 := by omega
    have hone : 1 < 2 ^ order := Nat.one_lt_two_pow hpos.ne'
    have hmul : (m.ptr + 1) / 2 ^ (d + 1) < 2 ^ order := by
      rw [Nat.div_lt_iff_lt_mul (Nat.two_pow_pos _), ← pow_add, ← add_assoc, ← hd]
      exact hptr
    dsimp only
    rw [hsub]
    split_ifs
    · omega
    · omega
    · omega
  · rw [hle.antisymm (not_lt.mp hlt)]
    exact hptr

theorem term_even (he : Even m.ptr) (ho : 0 < m.order) : m.columns m.term ≠ [] := by
  have hodd : (m.ptr + 1) % 2 ^ 1 ≠ 0 := by
    obtain ⟨a, ha⟩ := he
    omega
  have hterm : m.term = m.order - 1 := congrArg (m.order - ·) (if_pos hodd)
  rw [hterm]
  exact h.top ho

/-- Another node becomes the current one. -/
theorem found (hx : x ∈ m.columns c) :
    ({ m with pwmCurr := some ⟨x, c⟩ } : WeightMatrix).Sound w := by
  refine ⟨⟨⟨h.nodup, h.mem_column, h.mem_row, h.order_le, h.top, fun node hnode => ?_, h.empty⟩,
    h.lt, h.ptr, h.ptr_zero⟩, .inr rfl⟩
  obtain rfl := Option.some.inj hnode
  exact hx

/-- The column that is found is the next one, or the one after it. -/
theorem seek (ho : 0 < m.order) :
    ∃ m', seekColumn seekSteps m = .ok m' ∧ m'.Sound w := by
  rw [seekSteps, seekColumn_succ 1 (h.ptr ho)]
  cases hcol : m.columns m.term with
  | cons x l => exact ⟨_, rfl, (h.forward ho).found (List.mem_of_mem_head? (hcol ▸ rfl))⟩
  | nil =>
    have heven : Even m.forward.ptr := by
      have hnot : ¬ Even m.ptr := fun he => h.term_even he ho hcol
      change Even m.incPtr
      unfold incPtr
      split_ifs
      · exact Even.zero
      · exact (Nat.not_even_iff_odd.mp hnot).add_one
    have hne := (h.forward ho).term_even heven ho
    obtain ⟨x, l, hcol'⟩ := List.exists_cons_of_ne_nil hne
    change ∃ m', seekColumn 1 m.forward = .ok m' ∧ _
    rw [seekColumn_succ 0 ((h.forward ho).ptr ho), hcol']
    exact ⟨_, rfl, ((h.forward ho).forward ho).found (List.mem_of_mem_head? (hcol' ▸ rfl))⟩

end Filed

namespace Sound

variable (h : m.Sound w)
include h

theorem addToWM {k maxColumn : ℕ} (hq : w q = 0) (hk : 0 < k) (hlt : k < 2 ^ (maxColumn + 1))
    (hmax : maxColumn < maxWssOrder) :
    ∃ m', m.addToWM q maxColumn k = .ok m' ∧ m'.Sound (Function.update w q k) ∧
      ∀ node, m.pwmCurr = some node → m'.pwmCurr = some node := by
  have hl : (addNodes q k (maxColumn + 1) m).Linked (Function.update w q k) :=
    h.toLinked.addNodes (fun c _ _ => by rw [hq, Nat.zero_testBit]) fun c => by
      rw [hq, Nat.zero_testBit, Bool.or_false]
      rcases lt_or_ge c (maxColumn + 1) with hc | hc
      · simp [hc]
      · have hpow : k < 2 ^ c := hlt.trans_le (Nat.pow_le_pow_right two_pos hc)
        simp [Nat.testBit_lt_two_pow hpow]
  obtain ⟨hle, hcurr⟩ := addNodes_frame q k (maxColumn + 1) m
  have hbig : ¬ (2 : ℤ) ^ (maxColumn + 1) - 1 < k := by
    have hcast : (k : ℤ) < 2 ^ (maxColumn + 1) := by exact_mod_cast hlt
    omega
  have hne : ¬ (k : ℤ) = 0 := by exact_mod_cast hk.ne'
  refine ⟨_, (if_neg hne).trans (if_neg hbig), ⟨⟨hl.congr rfl rfl rfl rfl rfl, fun x => ?_,
    fun ho => h.scaleUp_lt hle ho, fun ho => ?_⟩, h.current.addNodes q k (maxColumn + 1)⟩, hcurr⟩
  · rw [Function.update_apply]
    split_ifs
    · exact hlt.trans_le (Nat.pow_le_pow_right two_pos hmax)
    · exact h.lt x
  · change (WeightMatrix.addNodes q k (maxColumn + 1) m).order = 0 at ho
    have hzero : m.order = 0 := Nat.eq_zero_of_le_zero (hle.trans_eq ho)
    exact (if_neg fun hgrow => hgrow.2.ne' hzero).trans (h.ptr_zero hzero)

theorem getNextNode (ho : 0 < m.order) :
    ∃ m', m.getNextNode = .ok m' ∧ m'.Sound w := by
  have hsome : m.pwmCurr.isSome = true := h.current.resolve_left fun hflag =>
    ho.ne' (h.empty.mp hflag)
  obtain ⟨node, hnode⟩ := Option.isSome_iff_exists.mp hsome
  unfold WeightMatrix.getNextNode
  rw [hnode]
  dsimp only
  cases hnext : follower (m.columns node.weight) node.queueid with
  | some x => exact ⟨_, rfl, h.found (mem_of_follower hnext)⟩
  | none =>
    dsimp only
    rw [if_neg ho.ne']
    exact h.seek ho

end Sound

theorem topColumn_spec (m : WeightMatrix) (n : ℕ) :
    m.topColumn n ≤ n ∧ (∀ c < n, m.columns c ≠ [] → c < m.topColumn n) ∧
      (0 < m.topColumn n → m.columns (m.topColumn n - 1) ≠ []) := by
  induction n with
  | zero => exact ⟨le_rfl, fun c hc => absurd hc (Nat.not_lt_zero c), fun h => absurd h (lt_irrefl 0)⟩
  | succ n ih =>
    rw [topColumn]
    split_ifs with hn
    · exact ⟨le_rfl, fun c hc _ => hc, fun _ => hn⟩
    · obtain ⟨hle, hlt, htop⟩ := ih
      refine ⟨hle.trans (Nat.le_succ n), fun c hc hne => hlt c ?_ hne, htop⟩
      exact (Nat.lt_succ_iff.mp hc).lt_of_ne fun heq => hn (heq ▸ hne)

namespace Sound

variable (h : m.Sound w)
include h

/-- The queue's nodes are found in its row and taken out of their columns. -/
theorem mem_unlink (node : WmNode) (x : ℕ) :
    x ∈ (m.unlink q node).columns c ↔ x ∈ m.columns c ∧ x ≠ q := by
  change x ∈ (if c ∈ m.rows q then (m.columns c).erase q else m.columns c) ↔ _
  split_ifs with hc
  · rw [(h.nodup c).mem_erase_iff]
    exact and_comm
  · refine ⟨fun hx => ⟨hx, fun heq => hc ?_⟩, And.left⟩
    rw [h.mem_row, ← heq, ← h.mem_column]
    exact hx

/-- Without the nodes of the queue, and before another node becomes the current one. -/
theorem unlink {node : WmNode} (hnode : m.pwmCurr = some node) (order ptr : ℕ) (flag : Bool)
    (ho : order = (m.unlink q node).topColumn m.order) (hflag : flag = true ↔ order = 0)
    (hptr : 0 < order → ptr + 1 < 2 ^ order) (hzero : order = 0 → ptr = 0) :
    ({ m.unlink q node with order := order, ptr := ptr, wmEmptyFlag := flag } :
      WeightMatrix).Filed (Function.update w q 0) := by
  obtain ⟨hle, hbelow, htop⟩ := (m.unlink q node).topColumn_spec m.order
  have hbit : ∀ x d, (Function.update w q 0 x).testBit d = true ↔ (w x).testBit d = true ∧ x ≠ q :=
    fun x d => by
      rw [Function.update_apply]
      split_ifs with hx
      · simp [hx]
      · simp [hx]
  refine ⟨⟨fun d => ?_, fun d x => ?_, fun x d => ?_, fun d hd => ?_, fun hpos => ?_,
    fun node' hnode' => ?_, hflag⟩, fun x => ?_, hptr, hzero⟩
  · change (if d ∈ m.rows q then (m.columns d).erase q else m.columns d).Nodup
    split_ifs
    · exact (h.nodup d).erase q
    · exact h.nodup d
  · rw [hbit, ← h.mem_column]
    exact h.mem_unlink node x
  · change d ∈ Function.update m.rows q [] x ↔ _
    rw [hbit, Function.update_apply]
    split_ifs with hx
    · simp [hx]
    · simp [hx, h.mem_row]
  · change d < order
    obtain ⟨x, hx⟩ := List.exists_mem_of_ne_nil _ hd
    have hlt := h.order_le d (List.ne_nil_of_mem ((h.mem_unlink node x).mp hx).1)
    exact ho ▸ hbelow d hlt hd
  · change (m.unlink q node).columns (order - 1) ≠ []
    rw [ho] at hpos ⊢
    exact htop hpos
  · change node' ∈ (if node.queueid = q then
      (follower (m.columns node.weight) q).map fun x => ⟨x, node.weight⟩ else some node) at hnode'
    change node'.queueid ∈ (m.unlink q node).columns node'.weight
    rw [h.mem_unlink]
    split_ifs at hnode' with hq
    · obtain ⟨x, hx, rfl⟩ := Option.map_eq_some_iff.mp hnode'
      exact ⟨mem_of_follower hx, ne_of_follower (h.nodup _) hx⟩
    · obtain rfl := Option.some.inj hnode'
      exact ⟨h.curr node hnode, hq⟩
  · rw [Function.update_apply]
    split_ifs
    · exact Nat.two_pow_pos _
    · exact h.lt x

theorem delFromWM (hq : w q ≠ 0) :
    ∃ m', m.delFromWM q = .ok m' ∧ m'.Sound (Function.update w q 0) := by
  obtain ⟨c, hc⟩ := Nat.exists_testBit_of_ne_zero hq
  have ho : 0 < m.order :=
    (Nat.zero_le c).trans_lt (h.order_le c (List.ne_nil_of_mem ((h.mem_column c q).mpr hc)))
  have hflag : ¬ m.wmEmptyFlag = true := fun hflag => ho.ne' (h.empty.mp hflag)
  obtain ⟨node, hnode⟩ := Option.isSome_iff_exists.mp (h.current.resolve_left hflag)
  unfold WeightMatrix.delFromWM
  rw [hnode]
  dsimp only
  have hle := ((m.unlink q node).topColumn_spec m.order).1
  by_cases hempty : (m.unlink q node).topColumn m.order = 0
  · rw [if_pos hempty]
    have hf := h.unlink hnode 0 0 true hempty.symm (by simp) (by simp) (fun _ => rfl)
    exact ⟨_, rfl, ⟨⟨⟨hf.nodup, hf.mem_column, hf.mem_row, hf.order_le, hf.top,
      fun _ hnode' => absurd hnode' (Option.not_mem_none _), hf.empty⟩, hf.lt, hf.ptr,
      hf.ptr_zero⟩, .inl rfl⟩⟩
  · have hpos := Nat.pos_of_ne_zero hempty
    have hf := h.unlink hnode _ (m.scaleDown ((m.unlink q node).topColumn m.order)) m.wmEmptyFlag rfl
      (iff_of_false hflag hempty) (fun _ => h.scaleDown_lt hpos hle) fun hzero => absurd hzero hempty
    rw [if_neg hempty]
    split_ifs with hnone
    · exact hf.seek hpos
    · exact ⟨_, rfl, ⟨hf, .inr (Option.isSome_iff_ne_none.mpr hnone)⟩⟩

end Sound

end WeightMatrix

end Ns2XPass
