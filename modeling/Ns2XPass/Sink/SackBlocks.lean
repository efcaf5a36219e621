import Ns2XPass.Sink.Sacker

/-! # What an acknowledgement reports

The blocks on the stack of a sacker are ranges of received packets above the
cumulative acknowledgement. The block of the packet that has arrived is a
maximal range of them, so that an older block lies in it or apart from it.
-/

namespace Ns2XPass

variable {size : ℕ → ℤ} {received : Finset ℕ} {seq : ℕ} {s : Sacker} {b c : SackBlock}

/-- A block that is not empty and has been received. -/
structure SackBlock.Received (received : Finset ℕ) (b : SackBlock) : Prop where
  lt : b.left < b.right
  nonneg : 0 ≤ b.left
  mem : ∀ i : ℕ, b.left ≤ i → (i : ℤ) < b.right → i ∈ received

/-- A block to which no received packet on either side can be added. -/
structure SackBlock.Maximal (received : Finset ℕ) (b : SackBlock) : Prop where
  range : b.Received received
  left : ∃ i : ℕ, i + 1 = b.left ∧ i ∉ received
  right : ∃ i : ℕ, i = b.right ∧ i ∉ received

def SackBlock.Apart (b c : SackBlock) : Prop := b.right ≤ c.left ∨ c.right ≤ b.left

namespace SackBlock

theorem Received.mono {received' : Finset ℕ} (h : b.Received received)
    (hsub : received ⊆ received') : b.Received received' :=
  ⟨h.lt, h.nonneg, fun i h1 h2 => hsub (h.mem i h1 h2)⟩

/-- A received block begins above a packet that is missing, if it ends above it. -/
theorem Received.le_of_notMem (h : b.Received received) {n : ℕ} (hn : n ∉ received)
    (hlt : (n : ℤ) < b.right) : (n : ℤ) < b.left := by
  by_contra hle
  exact hn (h.mem n (not_lt.mp hle) hlt)

/-- A received block lies in a maximal one or apart from it. -/
theorem Maximal.apart (h : b.Maximal received) (hc : c.Received received)
    (hcov : Sacker.covers b c = false) : b.Apart c := by
  obtain ⟨l, hl, hlm⟩ := h.left
  obtain ⟨r, hr, hrm⟩ := h.right
  have hcov : ¬(b.left ≤ c.left ∧ c.right ≤ b.right) := of_decide_eq_false hcov
  by_contra hap
  obtain ⟨h1, h2⟩ := not_or.mp hap
  have hleft := fun hlt => hc.le_of_notMem hlm (hlt : (l : ℤ) < c.right)
  have hright := fun hlt => hc.le_of_notMem hrm (hlt : (r : ℤ) < c.right)
  omega

end SackBlock

namespace Sacker

open SackBlock

/-- The sacker agrees with the packets received, and its stack with a list of blocks. -/
structure Agrees (s : Sacker) (size : ℕ → ℤ) (received : Finset ℕ) (bs : List SackBlock) :
    Prop where
  window : s.acker.Window size received
  holds : s.sf.Holds bs
  stackSize : s.sf.size = s.baseNblocks
  blocks : ∀ b ∈ bs, b.Received received ∧ (s.acker.next : ℤ) < b.left
  full : s.acker.maxseen < s.acker.next → bs = []

section Edges

variable {lo : ℕ} (hsize : ∀ i, 0 < size i) (hpow : ∃ k, s.acker.wndmask + 1 = 2 ^ k)
  (h : Shows s.acker.seen (s.acker.wndmask + 1) (Acker.sizeIn size received) lo
    (s.acker.maxseen + 2))
include hsize hpow h

theorem unseen_eq {i : ℕ} (hlo : lo ≤ i) (hi : i ≤ s.acker.maxseen + 1) :
    s.unseen i = decide (i ∉ received) := by
  rw [unseen, Acker.land_eq_mod hpow, h.cell i hlo (Nat.lt_succ_of_le hi),
    decide_eq_decide, Acker.sizeIn_eq_zero_iff hsize]

/-- The right edge is the first packet missing. -/
theorem sackRight_spec (hmax : s.acker.maxseen + 1 ∉ received) (hlo : lo ≤ seq)
    (hseq : seq ≤ s.acker.maxseen) (hm : seq ∈ received) :
    seq < s.sackRight seq ∧ s.sackRight seq ≤ s.acker.maxseen + 1 ∧
      s.sackRight seq ∉ received ∧ ∀ i, seq ≤ i → i < s.sackRight seq → i ∈ received := by
  have hend : seq + (s.acker.maxseen + 1 - seq) = s.acker.maxseen + 1 := by omega
  have hseen : ∀ i, lo ≤ i → i ≤ s.acker.maxseen + 1 → (!s.unseen i) = true → i ∈ received := by
    intro i h1 h2 h3
    rw [unseen_eq hsize hpow h h1 h2] at h3
    simpa using h3
  rw [sackRight]
  cases hf : (List.range' seq (s.acker.maxseen + 1 - seq)).find? s.unseen with
  | none =>
    rw [List.find?_range'_eq_none, hend] at hf
    rw [Option.getD_none]
    exact ⟨Nat.lt_succ_of_le hseq, le_rfl, hmax, fun i h1 h2 =>
      hseen i (hlo.trans h1) h2.le (hf i h1 h2)⟩
  | some r =>
    obtain ⟨hr, hmem, hall⟩ := List.find?_range'_eq_some.mp hf
    obtain ⟨h1, h2⟩ := List.mem_range'_1.mp hmem
    rw [hend] at h2
    rw [unseen_eq hsize hpow h (hlo.trans h1) h2.le, decide_eq_true_eq] at hr
    rw [Option.getD_some]
    refine ⟨lt_of_le_of_ne h1 fun heq => hr (heq ▸ hm), h2.le, hr, fun i hi hir => ?_⟩
    exact hseen i (hlo.trans hi) (by omega) (hall i hi hir)

end Edges

theorem leftHole_spec (h : s.unseen s.acker.next = true) {n : ℕ} (hn : 0 < n) :
    ∃ j, s.leftHole n = some j ∧ s.acker.next ≤ j ∧ j < s.acker.next + n ∧
      s.unseen j = true ∧ ∀ i, j < i → i < s.acker.next + n → s.unseen i = false := by
  induction n with
  | zero => exact absurd hn (lt_irrefl 0)
  | succ n ih =>
    rw [leftHole]
    split_ifs with hu
    · exact ⟨_, rfl, Nat.le_add_right _ _, Nat.lt_succ_self _, hu, fun i h1 h2 => by omega⟩
    · have hpos : 0 < n := Nat.pos_of_ne_zero fun h0 => hu (h0 ▸ h)
      obtain ⟨j, hj, hle, hlt, huj, hall⟩ := ih hpos
      refine ⟨j, hj, hle, by omega, huj, fun i h1 h2 => ?_⟩
      rcases eq_or_ne i (s.acker.next + n) with rfl | hne
      · simpa using hu
      · exact hall i h1 (by omega)

/-- The block of a packet above the cumulative acknowledgement. -/
theorem recent_maximal (hsize : ∀ i, 0 < size i) (h : s.acker.Window size received)
    (hm : seq ∈ received) (hle : s.acker.next ≤ seq) :
    (SackBlock.mk (s.sackLeft (s.sackRight seq)) (s.sackRight seq)).Maximal received ∧
      s.acker.next < s.sackLeft (s.sackRight seq) ∧ s.sackLeft (s.sackRight seq) ≤ seq ∧
      (seq : ℤ) < s.sackRight seq := by
  have hmax : s.acker.maxseen + 1 ∉ received := fun hm => (h.le_maxseen hm).not_gt (by omega)
  obtain ⟨hlt, hr, hrm, hall⟩ :=
    sackRight_spec hsize h.pow h.shows hmax hle (h.le_maxseen hm) hm
  have hunseen := fun i h1 h2 => unseen_eq (i := i) hsize h.pow h.shows h1 h2
  have hne : s.acker.next ≠ seq := fun heq => h.next.1 (heq ▸ hm)
  obtain ⟨j, hj, hjl, hjr, hju, hjall⟩ := leftHole_spec
    (n := s.sackRight seq - s.acker.next)
    (by rw [hunseen _ le_rfl h.next_le]; exact decide_eq_true h.next.1) (by omega)
  have hbound : s.acker.next + (s.sackRight seq - s.acker.next) = s.sackRight seq := by omega
  rw [hbound] at hjr hjall
  rw [hunseen j hjl (by omega), decide_eq_true_eq] at hju
  have hleft : s.sackLeft (s.sackRight seq) = j + 1 := by rw [sackLeft, hj]; rfl
  have hrange : ∀ i, j < i → i < s.sackRight seq → i ∈ received := fun i h1 h2 => by
    have hu := hjall i h1 h2
    rw [hunseen i (by omega) (by omega)] at hu
    simpa using hu
  have hjs : j < seq := by
    by_contra hge
    exact hju (hall j (not_lt.mp hge) hjr)
  rw [hleft]
  refine ⟨⟨⟨by dsimp only; omega, by dsimp only; omega, fun i h1 h2 => ?_⟩, ⟨j, rfl, hju⟩,
    ⟨_, rfl, hrm⟩⟩, by omega, by omega, by omega⟩
  dsimp only at h1 h2
  exact hrange i (by omega) (by omega)

/-- The blocks of an acknowledgement for the packet `seq`, apart from a D-SACK block. -/
structure Reports (received : Finset ℕ) (next seq : ℕ) (blocks : List SackBlock) : Prop where
  above : ∀ b ∈ blocks, b.Received received ∧ (next : ℤ) < b.left
  first : next ≤ seq → ∃ b rest, blocks = b :: rest ∧ b.Maximal received ∧ b.left ≤ seq ∧
    (seq : ℤ) < b.right

/-- A sacker after `update` and before `append_ack`, where the window began at `lo` before. -/
structure Updated (s : Sacker) (size : ℕ → ℤ) (received : Finset ℕ) (seq lo : ℕ)
    (bs : List SackBlock) : Prop where
  window : s.acker.Window size received
  shows : Shows s.acker.seen (s.acker.wndmask + 1) (Acker.sizeIn size received) lo
    (s.acker.maxseen + 2)
  mem : seq ∈ received
  late : s.acker.isDup = true ∨ s.acker.next ≤ seq → s.acker.next = lo
  first : s.acker.isDup = false → lo ≤ seq
  holds : s.sf.Holds bs
  stackSize : s.sf.size = s.baseNblocks
  blocks : ∀ b ∈ bs, b.Received received ∧ (lo : ℤ) < b.left
  full : s.acker.isDup = true → s.acker.maxseen < s.acker.next → bs = []

variable {bs sack : List SackBlock} {lo : ℕ}

theorem Agrees.updated (hsize : ∀ i, 0 < size i) (h : s.Agrees size received bs) (seq : ℕ) :
    ∃ d a, s.acker.update seq (size seq) = .ok (d, a) ∧ a.isDup = decide (seq ∈ received) ∧
      Updated { s with acker := a } size (insert seq received) seq s.acker.next bs := by
  obtain ⟨d, a, hok, hw, hdup, hle, -, hshow⟩ := h.window.update hsize seq
  have hsame : seq ∈ received → a.next = s.acker.next := fun hm => by
    rw [Finset.insert_eq_of_mem hm] at hw
    exact hw.next.unique h.window.next
  refine ⟨d, a, hok, hdup, hw, hshow, Finset.mem_insert_self _ _, ?_, ?_, h.holds, h.stackSize,
    fun b hb => ⟨(h.blocks b hb).1.mono (Finset.subset_insert _ _), (h.blocks b hb).2⟩, ?_⟩
  · rintro (hd | hn)
    · exact hsame (of_decide_eq_true (hdup.symm.trans hd))
    · have hne : s.acker.next ≠ seq := fun heq =>
        hw.next.1 (by rw [← hle.antisymm (heq ▸ hn)]; exact heq ▸ Finset.mem_insert_self _ _)
      have hmiss : s.acker.next ∉ insert seq received := by
        rw [Finset.mem_insert]
        rintro (heq | hm)
        · exact hne heq
        · exact h.window.next.1 hm
      exact (hw.next.2 hmiss).antisymm hle
  · intro hd
    by_contra hlt
    exact of_decide_eq_false (hdup.symm.trans hd) (h.window.mem_of_lt (not_le.mp hlt))
  · intro hd hfull
    have hm : seq ∈ received := of_decide_eq_true (hdup.symm.trans hd)
    have hmax : a.maxseen = s.acker.maxseen := by
      rw [hw.maxseen, h.window.maxseen, Finset.insert_eq_of_mem hm]
    exact h.full (hmax ▸ hsame hm ▸ hfull)

namespace Updated

variable (u : Updated s size received seq lo bs)
include u

theorem bounds : ∀ b ∈ bs, 0 ≤ b.left ∧ 0 ≤ b.right ∧ b.right ≤ s.acker.maxseen + 1 := by
  intro b hb
  obtain ⟨hr, -⟩ := u.blocks b hb
  have hlt := hr.lt
  have hnn := hr.nonneg
  have hlast : (b.right - 1).toNat ∈ received := hr.mem _ (by omega) (by omega)
  have := u.window.le_maxseen hlast
  omega

/-- A packet above the cumulative acknowledgement. -/
theorem blocks_late (hsize : ∀ i, 0 < size i) (hle : s.acker.next ≤ seq)
    (hroom : sack.length < s.baseNblocks) :
    ∃ blocks s' bs', s.blocks seq sack = .ok (sack ++ blocks, s') ∧
      (sack ++ blocks).length ≤ s.baseNblocks ∧ Reports received s.acker.next seq blocks ∧
      s'.Agrees size received bs' ∧ s'.acker = s.acker ∧ s'.baseNblocks = s.baseNblocks ∧
      s'.dsacks = s.dsacks ∧
      (sack = [] → bs.Pairwise Apart → blocks.Pairwise Apart ∧ bs'.Pairwise Apart) := by
  obtain ⟨hmax, hnext, hleft, hright⟩ := recent_maximal hsize u.window u.mem hle
  rw [Sacker.blocks, if_pos hle]
  let recent := SackBlock.mk (s.sackLeft (s.sackRight seq)) (s.sackRight seq)
  have hlen : (sack ++ [recent]).length = sack.length + 1 := by simp
  have hn : s.baseNblocks - (sack ++ [recent]).length + bs.length <
      s.baseNblocks + s.sf.cnt + 1 := by
    rw [hlen, u.holds.cnt]; omega
  obtain ⟨sf', hok, hh, hsz⟩ := otherBlocks_top recent u.holds u.bounds hn
  rw [hlen] at hh
  rw [hlen, List.append_assoc] at hok
  have hlo := u.late (.inr hle)
  have hpush := hh.push (by rw [hsz, u.stackSize]; omega) recent
  have hall : ∀ b ∈ recent :: bs, b.Received received ∧ (s.acker.next : ℤ) < b.left :=
    List.forall_mem_cons.mpr ⟨⟨hmax.range, hnext⟩, hlo ▸ u.blocks⟩
  have hsub : (recent :: (bs.filter fun b => !covers recent b).take
      (s.baseNblocks - (sack.length + 1))).Sublist (recent :: bs) :=
    ((List.take_sublist _ _).trans List.filter_sublist).cons_cons recent
  have hsub' : ((recent :: visit (covers recent) (s.baseNblocks - (sack.length + 1)) bs).take
      sf'.size).Sublist (recent :: bs) :=
    (List.take_sublist _ _).trans (visit_sublist.cons_cons recent)
  refine ⟨recent :: (bs.filter fun b => !covers recent b).take (s.baseNblocks - (sack.length + 1)),
    { s with sf := (sf'.push 0).setHead recent }, _, ?_, ?_,
    ⟨fun b hb => hall b (hsub.subset hb), fun _ => ⟨recent, _, rfl, hmax, hleft, hright⟩⟩,
    ⟨u.window, hpush, hsz.trans u.stackSize, fun b hb => ?_, fun hf => ?_⟩, rfl, rfl, rfl, ?_⟩
  · change (s.otherBlocks recent _ s.sf 0 (sack ++ [recent]) >>= _) = _
    rw [hok]
    rfl
  · have := List.length_take_le (s.baseNblocks - (sack.length + 1))
      (bs.filter fun b => !covers recent b)
    rw [List.length_append, List.length_cons]
    omega
  · exact hall b (hsub'.subset hb)
  · have := u.window.le_maxseen u.mem
    dsimp only at hf
    omega
  · rintro rfl hp
    have hroom : s.baseNblocks - 1 + 1 = s.baseNblocks := Nat.sub_add_cancel hroom
    have hap : (recent :: (bs.filter fun b => !covers recent b).take
        (s.baseNblocks - 1)).Pairwise Apart := by
      refine List.pairwise_cons.mpr ⟨fun b hb => ?_,
        hp.sublist ((List.take_sublist _ _).trans List.filter_sublist)⟩
      obtain ⟨hmem, hcov⟩ := List.mem_filter.mp (List.mem_of_mem_take hb)
      exact hmax.apart (u.blocks b hmem).1 (by simpa using hcov)
    refine ⟨hap, ?_⟩
    rwa [hsz, u.stackSize, ← hroom, List.take_succ_cons, List.length_nil, Nat.zero_add,
      Nat.add_sub_cancel, take_visit]

/-- A packet that the cumulative acknowledgement has passed. Blocks that it has passed with it are
covered, and taken off the stack since there is room for all. -/
theorem blocks_early (hsize : ∀ i, 0 < size i) (hlt : seq < s.acker.next)
    (hroom : s.acker.isDup = false → sack = []) (hcnt : s.acker.maxseen < s.acker.next → bs = [])
    (hsack : sack.length < s.baseNblocks) :
    ∃ blocks s' bs', s.blocks seq sack = .ok (sack ++ blocks, s') ∧
      (sack ++ blocks).length ≤ s.baseNblocks ∧ Reports received s.acker.next seq blocks ∧
      s'.Agrees size received bs' ∧ s'.acker = s.acker ∧ s'.baseNblocks = s.baseNblocks ∧
      s'.dsacks = s.dsacks ∧ blocks.Sublist bs ∧ bs'.Sublist bs := by
  let recent := SackBlock.mk 0 (s.sackRight seq)
  have hn : s.baseNblocks - sack.length + bs.length < s.baseNblocks + s.sf.cnt + 1 := by
    rw [u.holds.cnt]; omega
  obtain ⟨sf', hok, hh, hsz⟩ := otherBlocks_top recent u.holds u.bounds hn
  have hsub : ((bs.filter fun b => !covers recent b).take (s.baseNblocks - sack.length)).Sublist
      bs := (List.take_sublist _ _).trans List.filter_sublist
  have hsub' : (visit (covers recent) (s.baseNblocks - sack.length) bs).Sublist bs := visit_sublist
  have habove : ∀ b ∈ visit (covers recent) (s.baseNblocks - sack.length) bs,
      b.Received received ∧ (s.acker.next : ℤ) < b.left := by
    intro b hb
    cases hd : s.acker.isDup with
    | true => exact u.late (.inl hd) ▸ u.blocks b (hsub'.subset hb)
    | false =>
      obtain rfl := hroom hd
      have hfits : bs.length ≤ s.baseNblocks := u.stackSize ▸ u.holds.fits
      rw [List.length_nil, Nat.sub_zero, visit_eq_filter hfits, List.mem_filter] at hb
      obtain ⟨hmem, hcov⟩ := hb
      have hr := (u.blocks b hmem).1
      have hmax : s.acker.maxseen + 1 ∉ received := fun hm =>
        (u.window.le_maxseen hm).not_gt (Nat.lt_succ_self _)
      obtain ⟨hrl, -, hrm, -⟩ := sackRight_spec hsize u.window.pow u.shows hmax (u.first hd)
        (u.window.le_maxseen u.mem) u.mem
      have hnext : s.acker.next ≤ s.sackRight seq := u.window.next.2 hrm
      have hcov : ¬(0 ≤ b.left ∧ b.right ≤ (s.sackRight seq : ℤ)) :=
        of_decide_eq_false ((Bool.not_eq_true' _).mp hcov)
      have hnn := hr.nonneg
      exact ⟨hr, hr.le_of_notMem u.window.next.1 (by omega)⟩
  refine ⟨_, { s with sf := sf' }, _, ?_, ?_,
    ⟨fun b hb => habove b ?_, fun hle => absurd hlt hle.not_gt⟩,
    ⟨u.window, hh, hsz.trans u.stackSize, habove, fun hf => ?_⟩, rfl, rfl, rfl, hsub, hsub'⟩
  · rw [Sacker.blocks, if_neg hlt.not_ge]
    change (s.otherBlocks recent _ s.sf 0 sack >>= _) = _
    rw [hok]
    rfl
  · have := List.length_take_le (s.baseNblocks - sack.length)
      (bs.filter fun b => !covers recent b)
    rw [List.length_append]
    omega
  · rw [← take_visit] at hb
    exact List.mem_of_mem_take hb
  · rw [hcnt hf] at hsub' ⊢
    exact List.sublist_nil.mp hsub'

end Updated

/-- The D-SACK block for a packet. -/
def dsackBlock (s : Sacker) (received : Finset ℕ) (seq : ℕ) : List SackBlock :=
  if s.dsacks = true ∧ seq ∈ received then [⟨seq, seq + 1⟩] else []

theorem Agrees.recv (hsize : ∀ i, 0 < size i) (hN : 0 < s.baseNblocks)
    (hD : s.dsacks = true → 2 ≤ s.baseNblocks) (h : s.Agrees size received bs) (seq : ℕ) :
    ∃ blocks s' bs', s.recv seq (size seq) = .ok (s.dsackBlock received seq ++ blocks, s') ∧
      (s.dsackBlock received seq ++ blocks).length ≤ s.baseNblocks ∧
      Reports (insert seq received) s'.acker.next seq blocks ∧
      s'.Agrees size (insert seq received) bs' ∧ s'.baseNblocks = s.baseNblocks ∧
      s'.dsacks = s.dsacks ∧
      (¬(s.dsacks = true ∧ seq ∈ received ∧ s.acker.next < seq) → bs.Pairwise Apart →
        blocks.Pairwise Apart ∧ bs'.Pairwise Apart) := by
  obtain ⟨d, a, hok, hdup, u⟩ := h.updated hsize seq
  have hrecv : s.recv seq (size seq) = { s with acker := a }.appendAck seq := by
    rw [Sacker.recv, hok]
    rfl
  have hds : s.dsackBlock received seq = if s.dsacks ∧ a.isDup then [⟨seq, seq + 1⟩] else [] := by
    rw [dsackBlock, hdup]
    exact if_congr (by simp) rfl rfl
  have hds_nil : a.isDup = false → s.dsackBlock received seq = [] := fun hd => by
    rw [hds, hd, if_neg fun hc => by simp at hc]
  have hcnt : s.sf.cnt ≠ 0 → bs ≠ [] := fun hc hbs => hc (by rw [h.holds.cnt, hbs]; rfl)
  have hlate : a.next ≤ seq → seq ≤ a.maxseen := fun _ => u.window.le_maxseen u.mem
  rw [hrecv, appendAck]
  dsimp only
  by_cases hreset : (a.maxseen : ℤ) ≤ a.next - 1 ∧ s.sf.cnt ≠ 0
  · have hd : a.isDup = false := by
      by_contra hd
      exact hcnt hreset.2 (u.full (by simpa using hd) (by dsimp only; omega))
    rw [if_pos hreset, hds_nil hd]
    refine ⟨[], _, [], rfl, Nat.zero_le _, ⟨by simp, fun hle => ?_⟩,
      ⟨u.window, u.holds.reset, u.stackSize, by simp, fun _ => rfl⟩, rfl, rfl,
      fun _ _ => ⟨.nil, .nil⟩⟩
    dsimp only at hle
    have := hlate hle
    omega
  rw [if_neg hreset]
  have hempty : a.maxseen < a.next → bs = [] := fun hf => by
    by_contra hbs
    refine hreset ⟨by omega, fun hc => hbs ?_⟩
    exact List.length_eq_zero_iff.mp (h.holds.cnt.symm.trans hc)
  by_cases hmain : ((a.next : ℤ) - 1 < a.maxseen ∨ a.isDup = true) ∧ 0 < s.baseNblocks
  · have hlen : (s.dsackBlock received seq).length < s.baseNblocks := by
      rw [hds]
      split_ifs with hc
      · exact hD hc.1
      · exact hN
    rw [if_pos hmain, ← hds, if_neg hlen.not_ge]
    rcases Nat.lt_or_ge seq a.next with hseq | hseq
    · obtain ⟨blocks, s', bs', hb, hl, hr, ha, hacker, hbase, hdsack, hsub, hsub'⟩ :=
        u.blocks_early hsize hseq hds_nil hempty hlen
      exact ⟨blocks, s', bs', hb, hl, hacker ▸ hr, ha, hbase, hdsack,
        fun _ hp => ⟨hp.sublist hsub, hp.sublist hsub'⟩⟩
    · obtain ⟨blocks, s', bs', hb, hl, hr, ha, hacker, hbase, hdsack, hap⟩ :=
        u.blocks_late hsize hseq hlen
      refine ⟨blocks, s', bs', hb, hl, hacker ▸ hr, ha, hbase, hdsack, fun hc hp => hap ?_ hp⟩
      rw [hds, if_neg]
      rintro ⟨hds, hd⟩
      have hm : seq ∈ received := of_decide_eq_true (hdup.symm.trans hd)
      have hne : s.acker.next ≠ seq := fun heq => h.window.next.1 (heq ▸ hm)
      have hlo := u.late (.inr hseq)
      dsimp only at hlo
      exact hc ⟨hds, hm, by omega⟩
  · have hd : a.isDup = false := by
      by_contra hd
      exact hmain ⟨.inr (by simpa using hd), hN⟩
    have hfull : a.maxseen < a.next := by
      by_contra hf
      exact hmain ⟨.inl (by omega), hN⟩
    rw [if_neg hmain, hds_nil hd]
    refine ⟨[], _, [], rfl, Nat.zero_le _, ⟨by simp, fun hle => ?_⟩,
      ⟨u.window, hempty hfull ▸ u.holds, u.stackSize, by simp, fun _ => rfl⟩, rfl, rfl,
      fun _ _ => ⟨.nil, .nil⟩⟩
    have := hlate hle
    dsimp only at hle
    omega

end Sacker

end Ns2XPass
