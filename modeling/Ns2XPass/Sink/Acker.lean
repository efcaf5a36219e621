import Mathlib.Algebra.BigOperators.Intervals
import Mathlib.Algebra.Order.Group.Int
import Mathlib.Data.Finset.Lattice.Fold
import Mathlib.Order.Bounds.Basic
import Mathlib.Order.Lattice.Nat
import Ns2XPass.Library.Machine
import Ns2XPass.Library.Ring

/-! # The receive window of a TCP sink

An acker keeps the sizes of the packets received in a ring of cells, which is
indexed by a mask and doubled when a packet lies too far ahead. The window goes
from the next packet expected to the cell behind the last packet seen, which is
always zero: there the loop that moves the window stops.
-/

namespace Ns2XPass

/-- A loop that does not end within the number of steps it is given. -/
inductive SinkError
  | outOfSteps
  deriving DecidableEq

structure Acker where
  next : ℕ
  maxseen : ℕ
  wndmask : ℕ
  seen : ℕ → ℤ
  isDup : Bool

namespace Acker

def MWS : ℕ := 64

def MWM : ℕ := MWS - 1

/-- The constructor leaves `is_dup_` as it is in memory. -/
def new (isDup : Bool) : Acker := ⟨0, 0, MWM, fun _ => 0, isDup⟩

variable (a : Acker)

def reset : Acker :=
  { a with next := 0, maxseen := 0, seen := fun c => if c ≤ a.wndmask then 0 else a.seen c }

def resizeBuffers (sz : ℕ) : Acker :=
  { a with
    seen := (List.range' a.next (a.maxseen + 2 - a.next)).foldl
      (fun c i => Function.update c (i &&& (sz - 1)) (a.seen (i &&& a.wndmask))) fun _ => 0
    wndmask := sz - 1 }

/-- The loop of `update` that resizes the buffer. -/
def grow (seq : ℕ) : ℕ → Acker → Except SinkError Acker
  | 0, _ => .error .outOfSteps
  | n + 1, a =>
    if (a.wndmask : ℤ) ≤ seq + 1 - a.next then grow seq n (a.resizeBuffers ((a.wndmask + 1) * 2))
    else .ok a

/-- What `update` does for a packet that is the highest one seen so far. -/
def advance (seq : ℕ) (numBytes : ℤ) : Acker :=
  let cleared := (List.range' (a.maxseen + 1) (seq - (a.maxseen + 1))).foldl
    (fun c i => Function.update c (i &&& a.wndmask) 0) a.seen
  { a with
    maxseen := seq
    seen := Function.update (Function.update cleared (seq &&& a.wndmask) numBytes)
      ((seq + 1) &&& a.wndmask) 0 }

/-- The loop of `update` that moves the left edge of the window and counts what is delivered. -/
def deliver : ℕ → ℕ → ℤ → Except SinkError (ℤ × Acker)
  | 0, _, _ => .error .outOfSteps
  | n + 1, next, numToDeliver =>
    if a.seen (next &&& a.wndmask) ≠ 0 then
      deliver n (next + 1) (numToDeliver + a.seen (next &&& a.wndmask))
    else .ok (numToDeliver, { a with next := next })

/-- A packet at or behind the left edge of the window is recorded in its cell. -/
def record (seq : ℕ) (numBytes : ℤ) (justMarkedAsSeen : Bool) : Acker :=
  { a with
    isDup := a.isDup || a.seen (seq &&& a.wndmask) ≠ 0 && !justMarkedAsSeen
    seen := Function.update a.seen (seq &&& a.wndmask) numBytes }

/-- What `update` does once the packet is not behind the last one seen: it is to the left of the
window, or in it and recorded there. -/
def receive (seq : ℕ) (numBytes : ℤ) (justMarkedAsSeen : Bool) : Except SinkError (ℤ × Acker) :=
  if a.next ≤ seq ∧ seq ≤ a.maxseen then
    (a.record seq numBytes justMarkedAsSeen).deliver (a.wndmask + 1) a.next 0
  else .ok (0, { a with isDup := a.isDup || seq < a.next })

/-- The packet `seq` has arrived. The result is the number of bytes that can be delivered. -/
def update (seq : ℕ) (numBytes : ℤ) : Except SinkError (ℤ × Acker) := do
  let a ← grow seq (seq + 2) { a with isDup := false }
  if a.maxseen < seq then (a.advance seq numBytes).receive seq numBytes true
  else a.receive seq numBytes false

/-! ## The window -/

variable {a} {size : ℕ → ℤ} {received : Finset ℕ} {seq : ℕ}

/-- What the cell of a packet should hold. -/
def sizeIn (size : ℕ → ℤ) (received : Finset ℕ) (i : ℕ) : ℤ := if i ∈ received then size i else 0

/-- The acker agrees with the packets received: its ring shows the window up to the cell behind
the last packet. -/
structure Window (a : Acker) (size : ℕ → ℤ) (received : Finset ℕ) : Prop where
  pow : ∃ k, a.wndmask + 1 = 2 ^ k
  pos : 0 < a.wndmask
  next : IsLeast {i | i ∉ received} a.next
  maxseen : a.maxseen = received.sup id
  shows : Shows a.seen (a.wndmask + 1) (sizeIn size received) a.next (a.maxseen + 2)

theorem land_eq_mod {m : ℕ} (h : ∃ k, m + 1 = 2 ^ k) (i : ℕ) : i &&& m = i % (m + 1) := by
  obtain ⟨k, hk⟩ := h
  obtain rfl : m = 2 ^ k - 1 := by omega
  rw [Nat.and_two_pow_sub_one_eq_mod, hk]

theorem sizeIn_insert_of_ne {i : ℕ} (h : i ≠ seq) :
    sizeIn size (insert seq received) i = sizeIn size received i := by
  simp [sizeIn, h]

theorem sizeIn_insert_self : sizeIn size (insert seq received) seq = size seq := by
  simp [sizeIn]

theorem sizeIn_eq_zero_iff (hsize : ∀ i, 0 < size i) {i : ℕ} :
    sizeIn size received i = 0 ↔ i ∉ received := by
  rw [sizeIn]
  split_ifs with h
  · simp [h, (hsize i).ne']
  · simp [h]

theorem insert_sizeIn (f : ℕ → ℤ) (h : ∀ i, i ≠ seq → f i = sizeIn size received i) :
    Function.update f seq (size seq) = sizeIn size (insert seq received) := by
  funext i
  by_cases hi : i = seq
  · subst hi; rw [Function.update_self, sizeIn_insert_self]
  · rw [Function.update_of_ne hi, h i hi, sizeIn_insert_of_ne hi]

namespace Window

section

variable (h : a.Window size received)
include h

theorem mem_of_lt {i : ℕ} (hi : i < a.next) : i ∈ received := by
  by_contra hn
  exact (h.next.2 hn).not_gt hi

theorem le_maxseen {i : ℕ} (hi : i ∈ received) : i ≤ a.maxseen := by
  rw [h.maxseen]
  exact Finset.le_sup (f := id) hi

theorem next_le : a.next ≤ a.maxseen + 1 :=
  h.next.2 fun hm => (h.le_maxseen hm).not_gt (Nat.lt_succ_self _)

theorem resizeBuffers : (a.resizeBuffers ((a.wndmask + 1) * 2)).Window size received where
  pow := by
    obtain ⟨k, hk⟩ := h.pow
    exact ⟨k + 1, by rw [Acker.resizeBuffers, Nat.sub_add_cancel (by omega), hk, pow_succ]⟩
  pos := by have := h.pos; simp only [Acker.resizeBuffers]; omega
  next := h.next
  maxseen := h.maxseen
  shows := by
    have hpow : ∃ k, (a.wndmask + 1) * 2 - 1 + 1 = 2 ^ k := by
      obtain ⟨k, hk⟩ := h.pow
      exact ⟨k + 1, by rw [Nat.sub_add_cancel (by omega), hk, pow_succ]⟩
    simp only [Acker.resizeBuffers, land_eq_mod hpow, land_eq_mod h.pow]
    have hnext := h.next_le
    have hfits := h.shows.fits
    exact shows_copy (by omega) (by omega) h.shows.cell

end

theorem grow {n : ℕ} (seq : ℕ) (hn : (seq : ℤ) + 1 - a.next < a.wndmask + n)
    (h : a.Window size received) :
    ∃ a', Acker.grow seq (n + 1) a = .ok a' ∧ a'.Window size received ∧ a'.next = a.next ∧
      a'.maxseen = a.maxseen ∧ a'.isDup = a.isDup ∧ (seq : ℤ) + 1 - a'.next < a'.wndmask := by
  induction n generalizing a with
  | zero => exact ⟨a, if_neg (by omega), h, rfl, rfl, rfl, by omega⟩
  | succ n ih =>
    rw [Acker.grow]
    split_ifs with hle
    · have hmask : (a.resizeBuffers ((a.wndmask + 1) * 2)).wndmask = 2 * a.wndmask + 1 := by
        simp only [Acker.resizeBuffers]; omega
      refine ih ?_ h.resizeBuffers
      rw [hmask]
      have hnext : (a.resizeBuffers ((a.wndmask + 1) * 2)).next = a.next := rfl
      push_cast [hnext] at hn ⊢
      omega
    · exact ⟨a, rfl, h, rfl, rfl, rfl, by omega⟩

/-- The packets between the last one seen and a later one are not received, and the cell behind
it is zero. -/
theorem advance (hseq : a.maxseen < seq) (hlt : (seq : ℤ) + 1 - a.next < a.wndmask)
    (h : a.Window size received) :
    Shows (a.advance seq (size seq)).seen (a.wndmask + 1) (sizeIn size (insert seq received)) a.next
      (seq + 2) := by
  have hnext := h.next_le
  have hzero : ∀ i, a.maxseen + 1 ≤ i → i ≠ seq → sizeIn size (insert seq received) i = 0 := by
    intro i hi hne
    rw [sizeIn_insert_of_ne hne, sizeIn, if_neg fun hm => (h.le_maxseen hm).not_gt hi]
  have hold : Shows a.seen (a.wndmask + 1) (sizeIn size (insert seq received)) a.next
      (a.maxseen + 1) := by
    refine (h.shows.mono le_rfl (Nat.le_succ _)).congr fun i _ hi => ?_
    exact (sizeIn_insert_of_ne (by omega)).symm
  have hcleared := hold.fill (k := seq - (a.maxseen + 1)) hnext (by omega)
    fun i h1 h2 => (hzero i h1 (by omega)).symm
  rw [Nat.add_sub_cancel' hseq] at hcleared
  have hmarked := hcleared.extend (by omega) (by omega)
  rw [sizeIn_insert_self] at hmarked
  have hsentinel := hmarked.extend (by omega) (by omega)
  rw [hzero (seq + 1) (by omega) (by omega)] at hsentinel
  simpa only [Acker.advance, land_eq_mod h.pow] using hsentinel

/-- The loop stops at the first packet that is missing. -/
theorem deliver {n : ℕ} (hsize : ∀ i, 0 < size i) {next e : ℕ} (numToDeliver : ℤ)
    (hpow : ∃ k, a.wndmask + 1 = 2 ^ k)
    (h : Shows a.seen (a.wndmask + 1) (sizeIn size received) next (e + 1)) (hle : next ≤ e)
    (he : e ∉ received) (hn : e < next + n) :
    ∃ next', next ≤ next' ∧ next' ≤ e ∧ next' ∉ received ∧
      (∀ i, next ≤ i → i < next' → i ∈ received) ∧
      a.deliver n next numToDeliver =
        .ok (numToDeliver + ∑ i ∈ Finset.Ico next next', size i, { a with next := next' }) := by
  induction n generalizing next numToDeliver with
  | zero => omega
  | succ n ih =>
    have hcell : a.seen (next &&& a.wndmask) = sizeIn size received next := by
      rw [land_eq_mod hpow]
      exact h.cell next le_rfl (by omega)
    by_cases hm : next ∈ received
    · have hne : next ≠ e := fun heq => he (heq ▸ hm)
      obtain ⟨next', hle', he', hn', hall, hok⟩ :=
        ih (numToDeliver + size next) (h.mono (Nat.le_succ _) le_rfl) (by omega)
          (by omega)
      have hlt : next < next' := hle'
      refine ⟨next', hlt.le, he', hn', fun i h1 h2 => ?_, ?_⟩
      · rcases h1.eq_or_lt with rfl | h1
        · exact hm
        · exact hall i h1 h2
      · rw [Acker.deliver, hcell, sizeIn, if_pos hm, if_pos (hsize next).ne', hok,
          Finset.sum_eq_sum_Ico_succ_bot hlt, add_assoc]
    · refine ⟨next, le_rfl, hle, hm, fun i h1 h2 => absurd h1 h2.not_ge, ?_⟩
      rw [Acker.deliver, hcell, sizeIn, if_neg hm, if_neg (by simp), Finset.Ico_self,
        Finset.sum_empty, add_zero]

/-- The left edge of a window moves to the first packet that is missing. -/
theorem move (hsize : ∀ i, 0 < size i) (hpow : ∃ k, a.wndmask + 1 = 2 ^ k) (hpos : 0 < a.wndmask)
    (hlow : ∀ i < a.next, i ∈ received) (hnext : a.next ≤ a.maxseen + 1)
    (hmax : a.maxseen = received.sup id)
    (h : Shows a.seen (a.wndmask + 1) (sizeIn size received) a.next (a.maxseen + 2)) :
    ∃ d a', a.deliver (a.wndmask + 1) a.next 0 = .ok (d, a') ∧ a'.Window size received ∧
      a'.isDup = a.isDup ∧ a.next ≤ a'.next ∧ d = ∑ i ∈ Finset.Ico a.next a'.next, size i ∧
      Shows a'.seen (a'.wndmask + 1) (sizeIn size received) a.next (a'.maxseen + 2) := by
  have hend : a.maxseen + 1 ∉ received := fun hm => by
    have hle : a.maxseen + 1 ≤ received.sup id := Finset.le_sup (f := id) hm
    omega
  have hfits := h.fits
  obtain ⟨next', hle, he, hmiss, hall, hok⟩ :=
    deliver (n := a.wndmask + 1) hsize 0 hpow h hnext hend (by omega)
  refine ⟨_, _, hok, ⟨hpow, hpos, ⟨hmiss, fun i hi => ?_⟩, hmax, h.mono hle le_rfl⟩, rfl, hle,
    zero_add _, h⟩
  by_contra hlt
  rcases lt_or_ge i a.next with hin | hin
  · exact hi (hlow i hin)
  · exact hi (hall i hin (not_le.mp hlt))

/-- A packet has arrived: the window agrees with the packets received, the packet is a duplicate
if it had been received before, and what is delivered are the packets that the left edge of the
window has passed. Their cells still hold their sizes. -/
theorem update (hsize : ∀ i, 0 < size i) (h : a.Window size received) (seq : ℕ) :
    ∃ d a', a.update seq (size seq) = .ok (d, a') ∧ a'.Window size (insert seq received) ∧
      a'.isDup = decide (seq ∈ received) ∧ a.next ≤ a'.next ∧
      d = ∑ i ∈ Finset.Ico a.next a'.next, size i ∧
      Shows a'.seen (a'.wndmask + 1) (sizeIn size (insert seq received)) a.next
        (a'.maxseen + 2) := by
  have h0 : ({ a with isDup := false } : Acker).Window size received :=
    ⟨h.pow, h.pos, h.next, h.maxseen, h.shows⟩
  have hpos := h.pos
  obtain ⟨a₁, hok, h₁, hnext, -, hdup, hlt⟩ :=
    h0.grow (n := seq + 1) seq (by dsimp only; push_cast; omega)
  dsimp only at hnext hdup
  rw [Acker.update, hok, ← hnext]
  have hlow : ∀ i < a₁.next, i ∈ insert seq received := fun i hi =>
    Finset.mem_insert_of_mem (h₁.mem_of_lt hi)
  have hle := h₁.next_le
  rcases Nat.lt_or_ge a₁.maxseen seq with hseq | hseq
  · have hnew : seq ∉ received := fun hm => (h₁.le_maxseen hm).not_gt hseq
    have hin : a₁.next ≤ seq := by omega
    have hsup : seq = (insert seq received).sup id := by
      rw [Finset.sup_insert, ← h₁.maxseen]
      exact (sup_eq_left.mpr hseq.le).symm
    have hadv := (h₁.advance hseq hlt).write hin (by omega) (size seq)
    rw [insert_sizeIn _ fun i hi => sizeIn_insert_of_ne hi, ← land_eq_mod h₁.pow] at hadv
    obtain ⟨d, a', hok', h', hdup', hle', hd, hshow⟩ := move (a := (a₁.advance seq (size seq)).record seq
      (size seq) true) hsize h₁.pow h₁.pos hlow (hin.trans (Nat.le_succ seq)) hsup hadv
    refine ⟨d, a', ?_, h', ?_, hle', hd, hshow⟩
    · change ite _ _ _ = _
      rw [if_pos hseq, receive, if_pos ⟨hin, le_rfl⟩]
      exact hok'
    · rw [hdup', decide_eq_false hnew]
      simp [Acker.record, Acker.advance, hdup]
  · have hreceive : (if a₁.maxseen < seq then (a₁.advance seq (size seq)).receive seq (size seq) true
        else a₁.receive seq (size seq) false) = a₁.receive seq (size seq) false :=
      if_neg hseq.not_gt
    rcases Nat.lt_or_ge seq a₁.next with hlt' | hge
    · have hm : seq ∈ received := h₁.mem_of_lt hlt'
      have heq : insert seq received = received := Finset.insert_eq_of_mem hm
      refine ⟨0, { a₁ with isDup := true }, ?_, ?_, (decide_eq_true hm).symm, le_rfl, ?_,
        heq.symm ▸ h₁.shows⟩
      · refine hreceive.trans ?_
        rw [receive, if_neg fun hc => hc.1.not_gt hlt', decide_eq_true hlt', Bool.or_true]
      · rw [heq]
        exact ⟨h₁.pow, h₁.pos, h₁.next, h₁.maxseen, h₁.shows⟩
      · rw [Finset.Ico_self, Finset.sum_empty]
    · have hsup : a₁.maxseen = (insert seq received).sup id := by
        rw [Finset.sup_insert, ← h₁.maxseen]
        exact (sup_eq_right.mpr hseq).symm
      have hwrite := h₁.shows.write hge (by omega) (size seq)
      rw [insert_sizeIn _ fun _ _ => rfl, ← land_eq_mod h₁.pow] at hwrite
      obtain ⟨d, a', hok', h', hdup', hle', hd, hshow⟩ := move (a := a₁.record seq (size seq) false) hsize
        h₁.pow h₁.pos hlow hle hsup hwrite
      refine ⟨d, a', ?_, h', ?_, hle', hd, hshow⟩
      · refine hreceive.trans ?_
        rw [receive, if_pos ⟨hge, hseq⟩]
        exact hok'
      · have hcell : a₁.seen (seq &&& a₁.wndmask) = sizeIn size received seq := by
          rw [land_eq_mod h₁.pow]
          exact h₁.shows.cell seq hge (by omega)
        rw [hdup']
        simp [Acker.record, hdup, hcell, sizeIn_eq_zero_iff hsize]

end Window

/-- An acker at the start: the window is at zero and no cell holds a packet. -/
structure Fresh (a : Acker) : Prop where
  next : a.next = 0
  maxseen : a.maxseen = 0
  pow : ∃ k, a.wndmask + 1 = 2 ^ k
  pos : 0 < a.wndmask
  seen : ∀ c ≤ a.wndmask, a.seen c = 0

theorem fresh_new (isDup : Bool) : (new isDup).Fresh :=
  ⟨rfl, rfl, ⟨6, rfl⟩, (by decide : 0 < MWM), fun _ _ => rfl⟩

theorem Window.reset (h : a.Window size received) : a.reset.Fresh :=
  ⟨rfl, rfl, h.pow, h.pos, fun _ hc => if_pos hc⟩

theorem Fresh.window (h : a.Fresh) : a.Window size ∅ where
  pow := h.pow
  pos := h.pos
  next := ⟨by simp, fun _ _ => h.next ▸ Nat.zero_le _⟩
  maxseen := h.maxseen
  shows := by
    have hpos := h.pos
    rw [h.next, h.maxseen]
    refine ⟨by omega, fun i _ _ => ?_⟩
    rw [h.seen _ (Nat.lt_succ_iff.mp (Nat.mod_lt _ (Nat.succ_pos _)))]
    rfl

end Acker

/-! ## Runs -/

/-- The packets that have arrived, and the sum of the results of `update`. -/
structure Arrivals where
  received : Finset ℕ
  delivered : ℤ

/-- An acker to which packets arrive, each sequence number with its size. -/
def arrivingOne (size : ℕ → ℤ) : Machine Acker (ℕ × ℤ) SinkError where
  Init a := a.Fresh
  Enabled _ x := x.2 = size x.1
  step a x := (a.update x.1 x.2).map Prod.snd

def Arrivals.after (g : Arrivals) (a : Acker) (x : ℕ × ℤ) : Arrivals where
  received := insert x.1 g.received
  delivered := g.delivered + ((a.update x.1 x.2).toOption.elim 0 Prod.fst)

def arriving (size : ℕ → ℤ) : Machine (Acker × Arrivals) (ℕ × ℤ) SinkError :=
  (arrivingOne size).withHistory ⟨∅, 0⟩ fun a x _ g => g.after a x

variable {size : ℕ → ℤ}

instance (p : Acker × Arrivals) (x : ℕ × ℤ) : Decidable ((arriving size).Enabled p x) :=
  inferInstanceAs (Decidable (x.2 = size x.1))

theorem Arrivals.after_eq {g : Arrivals} {a a' : Acker} {seq : ℕ} {d : ℤ}
    (h : a.update seq (size seq) = .ok (d, a')) :
    g.after a (seq, size seq) = ⟨insert seq g.received, g.delivered + d⟩ := by
  rw [Arrivals.after, h]
  rfl

theorem arrivingOne_step {a a' : Acker} {seq : ℕ} {d : ℤ} (h : a.update seq (size seq) = .ok (d, a')) :
    (arrivingOne size).step a (seq, size seq) = .ok a' := by
  change (a.update seq (size seq)).map Prod.snd = .ok a'
  rw [h]
  rfl

theorem arriving_invariant (hsize : ∀ i, 0 < size i) :
    (arriving size).Invariant fun p => p.1.Window size p.2.received ∧
      p.2.delivered = ∑ i ∈ Finset.range p.1.next, size i where
  init p hi := by
    obtain ⟨hf, hg⟩ := hi
    rw [hg]
    exact ⟨hf.window, by rw [hf.next, Finset.sum_range_zero]⟩
  step p x p' h he hs := by
    obtain ⟨hw, hd⟩ := h
    obtain ⟨hs, hg⟩ := (Machine.withHistory_step_iff _).mp hs
    obtain ⟨seq, numBytes⟩ := x
    obtain rfl : numBytes = size seq := he
    obtain ⟨d, a', hok, hw', -, hle, hdel, -⟩ := hw.update hsize seq
    obtain rfl : a' = p'.1 := Except.ok.inj ((arrivingOne_step hok).symm.trans hs)
    rw [hg, Arrivals.after_eq hok]
    exact ⟨hw', by rw [hd, hdel, Finset.sum_range_add_sum_Ico _ hle]⟩

end Ns2XPass
