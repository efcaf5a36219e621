import Ns2XPass.Queue.DRRRuns
import Ns2XPass.Queue.SFQ

/-! # The indices of the buckets

The fair queues shift and add the bits of addresses and take remainders, which
are negative for negative numbers. The index of a bucket is then out of range
unless the last remainder is zero.
-/

namespace Ns2XPass

/-- How far the hash of a number that is not positive is below zero. -/
def hashBelow (modulus k : ℤ) : ℤ := (1 + k / 16 - k / 256 - k) % modulus

theorem not_toInt (x : BitVec 32) : (~~~ x).toInt = -x.toInt - 1 := by
  have hn := x.isLt
  rw [BitVec.toInt_not, BitVec.toInt_eq_toNat_bmod, Int.bmod_def, Int.bmod_def]
  omega

/-- The sum is not out of the range of `int`, and positive only for a positive number. -/
theorem mixed_toInt (k : BitVec 32) :
    (k + k.sshiftRight 8 + ~~~ k.sshiftRight 4).toInt =
      k.toInt + k.toInt / 256 - k.toInt / 16 - 1 := by
  have hlo := BitVec.le_toInt k
  have hhi := BitVec.toInt_lt (x := k)
  rw [BitVec.toInt_add, BitVec.toInt_add, not_toInt, BitVec.toInt_sshiftRight,
    BitVec.toInt_sshiftRight, Int.shiftRight_eq_div_pow, Int.shiftRight_eq_div_pow,
    Int.bmod_add_bmod, Int.bmod_eq_of_le] <;> omega

/-- A negative number has a remainder that is not positive. -/
theorem tmod_of_neg {k m : ℤ} (h : k < 0) : k.tmod m = -(-k % m) := by
  rw [← neg_neg k, Int.neg_tmod, Int.tmod_eq_emod_of_nonneg (by omega), neg_neg]

theorem tmod_neg_nonneg_iff {r b : ℤ} (hr : 0 ≤ r) (hb : 1 ≤ b) :
    0 ≤ (-r).tmod b ↔ b ∣ r := by
  have := Int.emod_nonneg r (show b ≠ 0 by omega)
  rw [Int.neg_tmod, Int.tmod_eq_emod_of_nonneg hr, Int.dvd_iff_emod_eq_zero]
  omega

theorem hashBelow_nonneg {m : ℤ} (hm : 1 ≤ m) (k : ℤ) : 0 ≤ hashBelow m k :=
  Int.emod_nonneg _ (by omega)

theorem mixed_tmod_of_pos {k m : ℤ} (hk : 0 < k) :
    0 ≤ (k + k / 256 - k / 16 - 1).tmod m :=
  Int.tmod_nonneg m (by omega)

theorem mixed_tmod_of_nonpos {k m : ℤ} (hk : k ≤ 0) :
    (k + k / 256 - k / 16 - 1).tmod m = -hashBelow m k := by
  rw [tmod_of_neg (by omega), hashBelow]
  congr 2
  omega

section Index

variable {α : Type} {ip : α → IpHeader} {p : α}

theorem SFQ.bucketIndex_nonneg_iff {q : SFQ α} (hb : 1 ≤ q.buckets) :
    0 ≤ q.bucketIndex ip p ↔ 0 < ((ip p).saddr + (ip p).daddr).toInt ∨
      q.buckets ∣ hashBelow (2 ^ 20 - 1) ((ip p).saddr + (ip p).daddr).toInt := by
  unfold SFQ.bucketIndex SFQ.hash
  dsimp only
  rw [mixed_toInt]
  rcases lt_or_ge 0 ((ip p).saddr + (ip p).daddr).toInt with hk | hk
  · simp only [hk, true_or, iff_true]
    exact Int.tmod_nonneg _ (mixed_tmod_of_pos hk)
  · rw [mixed_tmod_of_nonpos hk, tmod_neg_nonneg_iff (hashBelow_nonneg (by decide) _) hb]
    exact ⟨.inr, fun h => h.resolve_left (not_lt.mpr hk)⟩

/-- The number that `DRR::hash` mixes. -/
def DRR.masked (mask : Bool) (iph : IpHeader) : ℤ :=
  (if mask then iph.saddr &&& 0xfff0 else iph.saddr).toInt

theorem DRR.bucketIndex_nonneg_iff {s : DRR α} (hb : 1 ≤ s.buckets) :
    0 ≤ s.bucketIndex ip p ↔ 0 < masked s.mask (ip p) ∨
      hashBelow (2 ^ 24 - 1) (masked s.mask (ip p)) = 0 ∨
        s.buckets ∣ hashBelow (2 ^ 24 - 1) (masked s.mask (ip p)) - 1 := by
  unfold DRR.bucketIndex DRR.hash
  dsimp only
  rw [mixed_toInt]
  change 0 ≤ ((masked s.mask (ip p) + masked s.mask (ip p) / 256 - masked s.mask (ip p) / 16 -
    1).tmod (2 ^ 24 - 1) + 1).tmod s.buckets ↔ _
  rcases lt_or_ge 0 (masked s.mask (ip p)) with hk | hk
  · simp only [hk, true_or, iff_true]
    have := mixed_tmod_of_pos (m := 2 ^ 24 - 1) hk
    exact Int.tmod_nonneg _ (by omega)
  · have hn := hashBelow_nonneg (m := 2 ^ 24 - 1) (by decide) (masked s.mask (ip p))
    rw [mixed_tmod_of_nonpos hk]
    rcases eq_or_lt_of_le hn with hz | hpos
    · rw [← hz]
      simp only [true_or, or_true, iff_true]
      exact Int.tmod_nonneg _ (by decide)
    · have hneg : -hashBelow (2 ^ 24 - 1) (masked s.mask (ip p)) + 1 =
          -(hashBelow (2 ^ 24 - 1) (masked s.mask (ip p)) - 1) := by omega
      rw [hneg, tmod_neg_nonneg_iff (by omega) hb]
      constructor
      · exact fun h => .inr (.inr h)
      · rintro (h | h | h)
        · omega
        · omega
        · exact h

/-- The buckets of the fair queues are in range exactly for the addresses that are positive, or
whose remainders happen to be zero. -/
theorem bucketIndex_valid_iff (q : SFQ α) (s : DRR α) (ip : α → IpHeader) (p : α)
    (hq : 1 ≤ q.buckets) (hs : 1 ≤ s.buckets) :
    (0 ≤ q.bucketIndex ip p ∧ q.bucketIndex ip p < q.buckets ↔
      0 < ((ip p).saddr + (ip p).daddr).toInt ∨
        q.buckets ∣ hashBelow (2 ^ 20 - 1) ((ip p).saddr + (ip p).daddr).toInt) ∧
    (0 ≤ s.bucketIndex ip p ∧ s.bucketIndex ip p < s.buckets ↔
      0 < DRR.masked s.mask (ip p) ∨ hashBelow (2 ^ 24 - 1) (DRR.masked s.mask (ip p)) = 0 ∨
        s.buckets ∣ hashBelow (2 ^ 24 - 1) (DRR.masked s.mask (ip p)) - 1) := by
  have hsfq : q.bucketIndex ip p < q.buckets := Int.tmod_lt_of_pos _ (by omega)
  have hdrr : s.bucketIndex ip p < s.buckets := Int.tmod_lt_of_pos _ (by omega)
  constructor
  · rw [and_iff_left hsfq]
    exact SFQ.bucketIndex_nonneg_iff hq
  · rw [and_iff_left hdrr]
    exact DRR.bucketIndex_nonneg_iff hs

end Index

/-- Packets from node 1 to all nodes, whose address is `-1`. -/
def toAll (_ : ℕ) : IpHeader := ⟨1, 0xffffffff, 0⟩

/-- Packets from the address `-2`. -/
def fromBelow (_ : ℕ) : IpHeader := ⟨0xfffffffe, 1, 0⟩

theorem bucketIndex_valid_sixteen :
    0 ≤ (SFQ.initsfq 40 16 freshMemory).bucketIndex evenOdd 3 ∧
      (SFQ.initsfq 40 16 freshMemory).bucketIndex evenOdd 3 < 16 :=
  (bucketIndex_valid_iff (SFQ.initsfq 40 16 freshMemory) drrQueue evenOdd 3 (by decide)
    (by decide)).1.mpr (.inl (by decide))

/-- Both queues can be given a negative index. -/
theorem bucketIndex_negative :
    (SFQ.initsfq 40 16 freshMemory).bucketIndex toAll 0 = -1 ∧
      drrQueue.bucketIndex fromBelow 0 = -2 := by
  decide

end Ns2XPass
