import Ns2XPass.Sink.Acker

/-! # Generating selective acknowledgements

A sacker keeps the blocks that it has reported in a stack of bounded size, the
most recent one on top. An acknowledgement reports the block of the packet that
has triggered it and then what the stack holds, as far as there is room. Blocks
that the new one covers are taken off the stack on the way.
-/

namespace Ns2XPass

/-- The left and the right edge of a block. -/
structure SackBlock where
  left : ℤ
  right : ℤ
  deriving DecidableEq

/-- An entry of the stack that is not in use. -/
def SackBlock.unused : SackBlock := ⟨-1, -1⟩

structure SackStack where
  size : ℕ
  cnt : ℕ
  sfe : ℕ → SackBlock

namespace SackStack

def new (sz : ℕ) : SackStack := ⟨sz, 0, fun _ => SackBlock.unused⟩

variable (sf : SackStack)

def reset : SackStack :=
  { sf with
    cnt := 0
    sfe := (List.range sf.cnt).foldl (fun s i => Function.update s i SackBlock.unused) sf.sfe }

/-- Move the entries from `n` on down by one. The last one is lost if the stack is full. -/
def push (n : ℕ) : SackStack :=
  let cnt := if sf.size ≤ sf.cnt then sf.size - 1 else sf.cnt
  { sf with
    cnt := cnt + 1
    sfe := (List.range' n (cnt - n)).foldr (fun i s => Function.update s (i + 1) (s i)) sf.sfe }

def pop (n : ℕ) : SackStack :=
  { sf with
    cnt := sf.cnt - 1
    sfe := Function.update
      ((List.range' n (sf.cnt - 1 - n)).foldl (fun s i => Function.update s i (s (i + 1))) sf.sfe)
      (max n (sf.cnt - 1)) SackBlock.unused }

def setHead (b : SackBlock) : SackStack := { sf with sfe := Function.update sf.sfe 0 b }

end SackStack

structure Sacker where
  acker : Acker
  baseNblocks : ℕ
  dsacks : Bool
  sf : SackStack

namespace Sacker

variable (s : Sacker)

def reset : Sacker := { s with sf := s.sf.reset, acker := s.acker.reset }

def unseen (i : ℕ) : Bool := s.acker.seen (i &&& s.acker.wndmask) = 0

/-- Look rightward for the first hole, from the current packet on. Without one, the right edge is
the next expected packet. -/
def sackRight (oldSeqno : ℕ) : ℕ :=
  ((List.range' oldSeqno (s.acker.maxseen + 1 - oldSeqno)).find? s.unseen).getD
    (s.acker.maxseen + 1)

/-- The first hole to the left of `n` packets from the left edge of the window on. -/
def leftHole : ℕ → Option ℕ
  | 0 => none
  | n + 1 => if s.unseen (s.acker.next + n) then some (s.acker.next + n) else leftHole n

/-- Look leftward from the right edge for the first hole. -/
def sackLeft (sackRight : ℕ) : ℤ :=
  (s.leftHole (sackRight - s.acker.next)).elim (-1) fun i => i + 1

/-- Whether the newest block covers up an older one. -/
def covers (recent b : SackBlock) : Bool := recent.left ≤ b.left ∧ b.right ≤ recent.right

/-- The loop over the stack, from the entry `k` on. -/
def otherBlocks (recent : SackBlock) :
    ℕ → SackStack → ℕ → List SackBlock → Except SinkError (List SackBlock × SackStack)
  | 0, _, _, _ => .error .outOfSteps
  | n + 1, sf, k, sack =>
    if sack.length < s.baseNblocks then
      if (sf.sfe k).left < 0 ∨ (sf.sfe k).right < 0 ∨
          (s.acker.maxseen : ℤ) + 1 < (sf.sfe k).right then
        .ok (sack, sf)
      else if covers recent (sf.sfe k) then otherBlocks recent n (sf.pop k) k sack
      else otherBlocks recent n sf (k + 1) (sack ++ [sf.sfe k])
    else .ok (sack, sf)

/-- What follows the D-SACK block: the block of the packet, those on the stack, and the push. -/
def blocks (oldSeqno : ℕ) (sack : List SackBlock) :
    Except SinkError (List SackBlock × Sacker) := do
  let sackRight := s.sackRight oldSeqno
  if s.acker.next ≤ oldSeqno then
    let recent := ⟨s.sackLeft sackRight, sackRight⟩
    let (sack, sf) ←
      s.otherBlocks recent (s.baseNblocks + s.sf.cnt + 1) s.sf 0 (sack ++ [recent])
    return (sack, { s with sf := (sf.push 0).setHead recent })
  else
    let (sack, sf) ←
      s.otherBlocks ⟨0, sackRight⟩ (s.baseNblocks + s.sf.cnt + 1) s.sf 0 sack
    return (sack, { s with sf := sf })

/-- The blocks of the acknowledgement for the packet `old_seqno`. -/
def appendAck (oldSeqno : ℕ) : Except SinkError (List SackBlock × Sacker) :=
  let seqno : ℤ := s.acker.next - 1
  if (s.acker.maxseen : ℤ) ≤ seqno ∧ s.sf.cnt ≠ 0 then .ok ([], { s with sf := s.sf.reset })
  else if (seqno < s.acker.maxseen ∨ s.acker.isDup) ∧ 0 < s.baseNblocks then
    let sack : List SackBlock :=
      if s.dsacks ∧ s.acker.isDup then [⟨oldSeqno, oldSeqno + 1⟩] else []
    -- a D-SACK block leaves no room for another one if there may be only one
    if s.baseNblocks ≤ sack.length then .ok (sack, s) else s.blocks oldSeqno sack
  else .ok ([], s)

/-- A packet arrives: the window is updated and the acknowledgement built. -/
def recv (seq : ℕ) (numBytes : ℤ) : Except SinkError (List SackBlock × Sacker) := do
  let (_, acker) ← s.acker.update seq numBytes
  { s with acker := acker }.appendAck seq

end Sacker

/-! ## The stack as a list -/

namespace SackStack

variable {sf : SackStack} {bs : List SackBlock}

/-- The entries of the stack are those of a list, and `-1` behind them. -/
structure Holds (sf : SackStack) (bs : List SackBlock) : Prop where
  cnt : sf.cnt = bs.length
  fits : bs.length ≤ sf.size
  sfe : ∀ i, sf.sfe i = bs[i]?.getD SackBlock.unused

theorem holds_new (sz : ℕ) : (new sz).Holds [] := ⟨rfl, Nat.zero_le sz, fun _ => rfl⟩

theorem foldl_update_const {α : Type*} (v : α) (n : ℕ) (s : ℕ → α) (i : ℕ) :
    (List.range n).foldl (fun s i => Function.update s i v) s i = if i < n then v else s i := by
  induction n with
  | zero => rfl
  | succ n ih =>
    rw [List.range_succ, List.foldl_concat]
    rcases eq_or_ne i n with rfl | hne
    · rw [Function.update_self, if_pos (Nat.lt_succ_self i)]
    · rw [Function.update_of_ne hne, ih]
      exact if_congr (by omega) rfl rfl

theorem foldr_update_shift {α : Type*} (n k : ℕ) (s : ℕ → α) (i : ℕ) :
    (List.range' n k).foldr (fun i s => Function.update s (i + 1) (s i)) s i =
      if n < i ∧ i ≤ n + k then s (i - 1) else s i := by
  induction k generalizing n i with
  | zero => rw [if_neg (by omega)]; rfl
  | succ k ih =>
    rw [List.range'_succ, List.foldr_cons]
    rcases eq_or_ne i (n + 1) with rfl | hne
    · rw [Function.update_self, ih, if_neg (by omega), if_pos (by omega), Nat.add_sub_cancel]
    · rw [Function.update_of_ne hne, ih]
      exact if_congr (by omega) rfl rfl

theorem foldl_update_shift {α : Type*} (n k : ℕ) (s : ℕ → α) (i : ℕ) :
    (List.range' n k).foldl (fun s i => Function.update s i (s (i + 1))) s i =
      if n ≤ i ∧ i < n + k then s (i + 1) else s i := by
  induction k generalizing i with
  | zero => rw [if_neg (by omega)]; rfl
  | succ k ih =>
    rw [List.range'_1_concat, List.foldl_concat]
    rcases eq_or_ne i (n + k) with rfl | hne
    · rw [Function.update_self, ih, if_neg (by omega), if_pos (by omega)]
    · rw [Function.update_of_ne hne, ih]
      exact if_congr (by omega) rfl rfl

theorem reset_sfe (i : ℕ) : sf.reset.sfe i = if i < sf.cnt then SackBlock.unused else sf.sfe i :=
  foldl_update_const _ _ _ _

theorem push_setHead_sfe_zero (b : SackBlock) : ((sf.push 0).setHead b).sfe 0 = b := by
  simp [setHead]

theorem push_setHead_sfe_succ (b : SackBlock) (i : ℕ) :
    ((sf.push 0).setHead b).sfe (i + 1) =
      if i < (if sf.size ≤ sf.cnt then sf.size - 1 else sf.cnt) then sf.sfe i
      else sf.sfe (i + 1) := by
  refine (Function.update_of_ne i.succ_ne_zero b (sf.push 0).sfe).trans ?_
  refine (foldr_update_shift _ _ _ _).trans (if_congr ?_ rfl rfl)
  omega

theorem pop_sfe {n : ℕ} (hn : n < sf.cnt) (i : ℕ) :
    (sf.pop n).sfe i =
      if i = sf.cnt - 1 then SackBlock.unused
      else if n ≤ i ∧ i < sf.cnt - 1 then sf.sfe (i + 1) else sf.sfe i := by
  have hmax : max n (sf.cnt - 1) = sf.cnt - 1 := by omega
  have hlast : n + (sf.cnt - 1 - n) = sf.cnt - 1 := by omega
  change Function.update _ (max n (sf.cnt - 1)) _ i = _
  rw [hmax, Function.update_apply, foldl_update_shift, hlast]

theorem Holds.reset (h : sf.Holds bs) : sf.reset.Holds [] where
  cnt := rfl
  fits := Nat.zero_le _
  sfe i := by
    rw [reset_sfe, h.cnt, h.sfe]
    split_ifs with hi
    · rfl
    · rw [List.getElem?_eq_none (not_lt.mp hi)]; rfl

/-- The new head goes on top, and the last entry is dropped when the stack is full. -/
theorem Holds.push (h : sf.Holds bs) (hsize : 0 < sf.size) (b : SackBlock) :
    ((sf.push 0).setHead b).Holds ((b :: bs).take sf.size) where
  cnt := by
    have hfits := h.fits
    rw [List.length_take, List.length_cons]
    simp only [SackStack.setHead, SackStack.push, h.cnt]
    split_ifs <;> omega
  fits := List.length_take_le _ _
  sfe i := by
    have hfits := h.fits
    rw [List.getElem?_take]
    cases i with
    | zero => rw [push_setHead_sfe_zero, if_pos hsize]; rfl
    | succ i =>
      rw [push_setHead_sfe_succ, h.cnt, h.sfe, h.sfe, List.getElem?_cons_succ]
      by_cases hfull : sf.size ≤ bs.length
      · rw [if_pos hfull]
        by_cases hi : i + 1 < sf.size
        · rw [if_pos (by omega), if_pos hi]
        · rw [if_neg (by omega), if_neg hi, List.getElem?_eq_none (by omega)]
      · rw [if_neg hfull]
        by_cases hi : i < bs.length
        · rw [if_pos hi, if_pos (by omega)]
        · rw [if_neg hi, List.getElem?_eq_none (not_lt.mp hi), ite_self,
            List.getElem?_eq_none (by omega)]

theorem Holds.pop {n : ℕ} (h : sf.Holds bs) (hn : n < bs.length) :
    (sf.pop n).Holds (bs.eraseIdx n) where
  cnt := by rw [List.length_eraseIdx_of_lt hn, ← h.cnt]; rfl
  fits := (List.length_eraseIdx_le _ _).trans h.fits
  sfe i := by
    rw [pop_sfe (h.cnt ▸ hn), h.cnt, h.sfe, h.sfe, List.getElem?_eraseIdx]
    by_cases hlast : i = bs.length - 1
    · rw [if_pos hlast, if_neg (by omega), List.getElem?_eq_none (by omega)]
      rfl
    · rw [if_neg hlast]
      by_cases hi : i < n
      · rw [if_pos hi, if_neg (by omega)]
      · rw [if_neg hi]
        by_cases hlt : i < bs.length
        · rw [if_pos (by omega)]
        · rw [if_neg (by omega), List.getElem?_eq_none (not_lt.mp hlt),
            List.getElem?_eq_none (by omega)]

end SackStack

/-! ## The loop over the stack -/

section Visit

variable {α : Type*} (p : α → Bool)

/-- What is left of a list when the elements with `p` are deleted as long as there is room for
others. -/
def visit : ℕ → List α → List α
  | 0, as => as
  | _ + 1, [] => []
  | m + 1, a :: as => if p a then visit (m + 1) as else a :: visit m as

@[simp] theorem visit_zero (as : List α) : visit p 0 as = as := by cases as <;> rfl

variable {p} {m : ℕ} {as : List α}

theorem visit_sublist : (visit p m as).Sublist as := by
  induction as generalizing m with
  | nil => cases m <;> exact .refl _
  | cons a as ih =>
    cases m with
    | zero => exact .refl _
    | succ m =>
      rw [visit]
      split_ifs with h
      · exact ih.cons a
      · exact ih.cons_cons a

/-- The elements for which there is room are the first ones without `p`. -/
theorem take_visit : (visit p m as).take m = (as.filter fun a => !p a).take m := by
  induction as generalizing m with
  | nil => cases m <;> rfl
  | cons a as ih =>
    cases m with
    | zero => rfl
    | succ m =>
      rw [visit]
      split_ifs with h
      · rw [ih, List.filter_cons_of_neg (by simp [h])]
      · rw [List.take_succ_cons, ih, List.filter_cons_of_pos (by simp [h]), List.take_succ_cons]

/-- With room for all elements none with `p` is left. -/
theorem visit_eq_filter (h : as.length ≤ m) : visit p m as = as.filter fun a => !p a := by
  have hlen : (visit p m as).length ≤ m := visit_sublist.length_le.trans h
  rw [← List.take_of_length_le hlen, take_visit,
    List.take_of_length_le ((List.length_filter_le _ _).trans h)]

end Visit

namespace Sacker

variable {s : Sacker} {sf : SackStack} {pre bs sack : List SackBlock} {recent : SackBlock} {n : ℕ}

/-- The loop reports the blocks on the stack that the recent one does not cover, as far as there
is room, and deletes those that it covers on the way. -/
theorem otherBlocks_eq (h : sf.Holds (pre ++ bs))
    (hbs : ∀ b ∈ bs, 0 ≤ b.left ∧ 0 ≤ b.right ∧ b.right ≤ s.acker.maxseen + 1)
    (hn : s.baseNblocks - sack.length + bs.length < n) :
    ∃ sf', s.otherBlocks recent n sf pre.length sack =
        .ok (sack ++ (bs.filter fun b => !covers recent b).take (s.baseNblocks - sack.length),
          sf') ∧
      sf'.Holds (pre ++ visit (covers recent) (s.baseNblocks - sack.length) bs) ∧
      sf'.size = sf.size := by
  induction n generalizing sf pre bs sack with
  | zero => omega
  | succ n ih =>
    rw [otherBlocks]
    rcases hroom : s.baseNblocks - sack.length with _ | m
    · rw [if_neg (by omega), List.take_zero, List.append_nil, visit_zero]
      exact ⟨sf, rfl, h, rfl⟩
    rw [if_pos (by omega)]
    cases bs with
    | nil =>
      have hend : sf.sfe pre.length = SackBlock.unused := by
        rw [h.sfe, List.append_nil, List.getElem?_eq_none le_rfl]; rfl
      rw [hend, if_pos (.inl (by decide)), List.filter_nil, List.take_nil, List.append_nil]
      exact ⟨sf, rfl, h, rfl⟩
    | cons b bs =>
      obtain ⟨⟨h1, h2, h3⟩, hbs⟩ := List.forall_mem_cons.mp hbs
      have hb : sf.sfe pre.length = b := by
        rw [h.sfe, List.getElem?_append_right le_rfl, Nat.sub_self]; rfl
      rw [hb, if_neg (by omega)]
      rw [List.length_cons, hroom] at hn
      split_ifs with hc
      · have hpop := h.pop (n := pre.length) (by simp)
        rw [List.eraseIdx_append_of_length_le le_rfl, Nat.sub_self, List.eraseIdx_zero,
          List.tail_cons] at hpop
        have hn' : s.baseNblocks - sack.length + bs.length < n := by omega
        obtain ⟨sf', hok, hh, hsize⟩ := ih hpop hbs hn'
        rw [hroom] at hok hh
        rw [hok, List.filter_cons_of_neg (by simp [hc]), visit, if_pos hc]
        exact ⟨sf', rfl, hh, hsize⟩
      · rw [List.append_cons] at h
        have hm : s.baseNblocks - (sack ++ [b]).length = m := by
          rw [List.length_append, List.length_singleton]; omega
        have hn' : s.baseNblocks - (sack ++ [b]).length + bs.length < n := by omega
        obtain ⟨sf', hok, hh, hsize⟩ := ih h hbs hn'
        rw [hm, List.length_append, List.length_singleton] at hok
        rw [hm] at hh
        rw [hok, List.filter_cons_of_pos (by simp [hc]), visit, if_neg hc, List.take_succ_cons]
        exact ⟨sf', by simp, by simpa using hh, hsize⟩

theorem otherBlocks_top (recent : SackBlock) (h : sf.Holds bs)
    (hbs : ∀ b ∈ bs, 0 ≤ b.left ∧ 0 ≤ b.right ∧ b.right ≤ s.acker.maxseen + 1)
    (hn : s.baseNblocks - sack.length + bs.length < n) :
    ∃ sf', s.otherBlocks recent n sf 0 sack =
        .ok (sack ++ (bs.filter fun b => !covers recent b).take (s.baseNblocks - sack.length),
          sf') ∧
      sf'.Holds (visit (covers recent) (s.baseNblocks - sack.length) bs) ∧ sf'.size = sf.size := by
  have h0 : sf.Holds ([] ++ bs) := h
  exact otherBlocks_eq h0 hbs hn

end Sacker

end Ns2XPass
