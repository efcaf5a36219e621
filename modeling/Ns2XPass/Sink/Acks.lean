import Ns2XPass.Library.Except
import Ns2XPass.Sink.SackBlocks

/-! # Runs of a sacker

Packets arrive one after the other and each is acknowledged at once. A history
variable records which have been received, and whether a D-SACK block has ever
been sent for a packet above the cumulative acknowledgement: it takes up the
room in which blocks on the stack would have been found to be covered.
-/

namespace Ns2XPass

/-- The packets that have arrived, and whether none of them was a duplicate above the cumulative
acknowledgement for which a D-SACK block was sent. -/
structure Acked where
  received : Finset ℕ
  clean : Bool

namespace Sacker

/-- A sacker at the start: nothing has been received and its stack is empty. -/
structure Fresh (s : Sacker) (nblocks : ℕ) (dsacks : Bool) : Prop where
  acker : s.acker.Fresh
  holds : s.sf.Holds []
  stackSize : s.sf.size = nblocks
  baseNblocks : s.baseNblocks = nblocks
  dsacks : s.dsacks = dsacks

def new (nblocks : ℕ) (dsacks isDup : Bool) : Sacker :=
  ⟨Acker.new isDup, nblocks, dsacks, SackStack.new nblocks⟩

variable {size : ℕ → ℤ} {nblocks : ℕ} {dsacks : Bool} {s : Sacker} {bs : List SackBlock}
  {received : Finset ℕ}

theorem fresh_new (nblocks : ℕ) (dsacks isDup : Bool) :
    (new nblocks dsacks isDup).Fresh nblocks dsacks :=
  ⟨Acker.fresh_new isDup, SackStack.holds_new nblocks, rfl, rfl, rfl⟩

theorem Agrees.reset (h : s.Agrees size received bs) :
    s.reset.Fresh s.baseNblocks s.dsacks :=
  ⟨h.window.reset, h.holds.reset, h.stackSize, rfl, rfl⟩

theorem Fresh.agrees (h : s.Fresh nblocks dsacks) : s.Agrees size ∅ [] where
  window := h.acker.window
  holds := h.holds
  stackSize := h.stackSize.trans h.baseNblocks.symm
  blocks := by simp
  full _ := rfl

/-- A sacker to which packets arrive, each sequence number with its size. -/
def ackingOne (size : ℕ → ℤ) (nblocks : ℕ) (dsacks : Bool) : Machine Sacker (ℕ × ℤ) SinkError where
  Init s := s.Fresh nblocks dsacks
  Enabled _ x := x.2 = size x.1
  step s x := (s.recv x.1 x.2).map Prod.snd

end Sacker

def Acked.after (g : Acked) (s : Sacker) (seq : ℕ) : Acked where
  received := insert seq g.received
  clean := g.clean && !(s.dsacks && decide (seq ∈ g.received) && decide (s.acker.next < seq))

def acking (size : ℕ → ℤ) (nblocks : ℕ) (dsacks : Bool) :
    Machine (Sacker × Acked) (ℕ × ℤ) SinkError :=
  (Sacker.ackingOne size nblocks dsacks).withHistory ⟨∅, true⟩ fun s x _ g => g.after s x.1

open SackBlock

variable {size : ℕ → ℤ} {nblocks : ℕ} {dsacks : Bool}

instance (p : Sacker × Acked) (x : ℕ × ℤ) : Decidable ((acking size nblocks dsacks).Enabled p x) :=
  inferInstanceAs (Decidable (x.2 = size x.1))

theorem ackingOne_step {s s' : Sacker} {seq : ℕ} {blocks : List SackBlock}
    (h : s.recv seq (size seq) = .ok (blocks, s')) :
    (Sacker.ackingOne size nblocks dsacks).step s (seq, size seq) = .ok s' := by
  change (s.recv seq (size seq)).map Prod.snd = .ok s'
  rw [h]
  rfl

/-- The sacker agrees with the history. -/
def Sacker.Follows (s : Sacker) (size : ℕ → ℤ) (nblocks : ℕ) (dsacks : Bool) (g : Acked) : Prop :=
  s.baseNblocks = nblocks ∧ s.dsacks = dsacks ∧
    ∃ bs, s.Agrees size g.received bs ∧ (g.clean = true → bs.Pairwise Apart)

theorem Acked.clean_after {g : Acked} {s : Sacker} {seq : ℕ} (h : (g.after s seq).clean = true) :
    g.clean = true ∧ ¬(s.dsacks = true ∧ seq ∈ g.received ∧ s.acker.next < seq) := by
  simpa [after, or_assoc, imp_iff_not_or] using h

theorem acking_invariant (hsize : ∀ i, 0 < size i) (hN : 0 < nblocks)
    (hD : dsacks = true → 2 ≤ nblocks) :
    (acking size nblocks dsacks).Invariant fun p => p.1.Follows size nblocks dsacks p.2 where
  init p hi := by
    obtain ⟨hf, hg⟩ := hi
    rw [hg]
    exact ⟨hf.baseNblocks, hf.dsacks, [], hf.agrees, fun _ => .nil⟩
  step p x p' h he hs := by
    obtain ⟨rfl, rfl, bs, ha, hap⟩ := h
    obtain ⟨hs, hg⟩ := (Machine.withHistory_step_iff _).mp hs
    obtain ⟨seq, numBytes⟩ := x
    obtain rfl : numBytes = size seq := he
    obtain ⟨blocks, s', bs', hok, -, -, ha', hbase, hds, hap'⟩ := ha.recv hsize hN hD seq
    obtain rfl : s' = p'.1 := Except.ok.inj ((ackingOne_step hok).symm.trans hs)
    rw [hg]
    refine ⟨hbase, hds, bs', ha', fun hc => ?_⟩
    obtain ⟨hclean, hno⟩ := Acked.clean_after hc
    exact (hap' hno (hap hclean)).2

end Ns2XPass
