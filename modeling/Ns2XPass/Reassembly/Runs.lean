import Mathlib.Data.Int.ConditionallyCompleteOrder
import Ns2XPass.Library.Machine
import Ns2XPass.Reassembly.Adding

/-! # Runs of the reassembly queue

A history variable records what a run has added and cleared. Whatever the calls
are, the queue holds exactly this, in separated blocks, and as long as nothing is
added below `rcv_nxt_`, this is where the run of received data ends.
-/

namespace Ns2XPass

variable {rcvnxt : TcpSeq} {rq rq' : ReassemblyQueue} {as : List ℕ} {c : RqCall}

namespace RqCall

/-- The ranges that are added are not empty. -/
def Valid : RqCall → Prop
  | .add sseq eseq _ _ => sseq < eseq
  | _ => True

instance : DecidablePred Valid
  | .add sseq eseq _ _ => inferInstanceAs (Decidable (sseq < eseq))
  | .clearto _ | .cleartonxt | .clear | .init _ => inferInstanceAs (Decidable True)

end RqCall

/-- A queue without blocks, whatever the memory and the free list hold. -/
structure ReassemblyQueue.Fresh (rq : ReassemblyQueue) (rcvnxt : TcpSeq) : Prop where
  head : rq.fifo.head = none
  tail : rq.fifo.tail = none
  top : rq.lifo.head = none
  bottom : rq.lifo.tail = none
  total : rq.total = 0
  rcvNxt : rq.rcvNxt = rcvnxt
  unused : ∃ free, Segment rq.fifo.next rq.freelist free none ∧ Allocated rq.brk free

/-- A reassembly queue that is empty at first. -/
def reassembly (rcvnxt : TcpSeq) : Machine ReassemblyQueue RqCall RqError where
  Init rq := rq.Fresh rcvnxt
  Enabled _ c := c.Valid
  step rq c := c.step rq

/-- The first sequence number from `r` on that is missing in `c`. -/
noncomputable def runEnd (c : Set TcpSeq) (r : TcpSeq) : TcpSeq := sInf {x | r ≤ x ∧ x ∉ c}

/-- What a run has received: the union of what has been added without what has been cleared, the
end of the contiguous run, and whether nothing has been added below `rcv_nxt_`. -/
structure Received where
  covered : Set TcpSeq
  next : TcpSeq
  above : Bool

noncomputable def Received.after (g : Received) (rq : ReassemblyQueue) : RqCall → Received
  | .add sseq eseq _ _ =>
    { covered := g.covered ∪ Set.Ico sseq eseq
      next := runEnd (g.covered ∪ Set.Ico sseq eseq) g.next
      above := g.above && decide (rq.rcvNxt ≤ sseq) }
  | .clearto seq => { g with covered := g.covered ∩ Set.Ici seq }
  | .cleartonxt => { g with covered := g.covered ∩ Set.Ici rq.rcvNxt }
  | .clear => { g with covered := ∅ }
  | .init rcvnxt => { covered := ∅, next := rcvnxt, above := true }

/-- The reassembly queue beside what it has received. -/
noncomputable def receiving (rcvnxt : TcpSeq) : Machine (ReassemblyQueue × Received) RqCall RqError :=
  (reassembly rcvnxt).withHistory { covered := ∅, next := rcvnxt, above := true }
    fun rq c _ g => g.after rq c

instance (p : ReassemblyQueue × Received) (c : RqCall) : Decidable ((receiving rcvnxt).Enabled p c) :=
  inferInstanceAs (Decidable c.Valid)

namespace ReassemblyQueue

/-- The FIFO and the LIFO hold the same blocks, which are separated, cover `received` and are
counted by `total_`. -/
structure Keeps (rq : ReassemblyQueue) (fifo lifo : List ℕ) (received : Set TcpSeq) : Prop where
  fifoSpells : rq.fifo.Spells fifo
  lifoSpells : rq.lifo.Spells lifo
  same : lifo.Perm fifo
  separated : Separated rq.startseq rq.endseq fifo
  covered : cover rq.startseq rq.endseq fifo = received
  total : rq.total = extent rq.startseq rq.endseq fifo

theorem Fresh.holds (h : rq.Fresh rcvnxt) : rq.Holds [] := by
  obtain ⟨free, hf, ha⟩ := h.unused
  exact ⟨⟨⟨free, ⟨h.head, h.tail⟩, hf, ha⟩, [], ⟨h.top, h.bottom⟩, .nil⟩, separated_nil, h.total⟩

/-- The queue holds what has been received, and knows where the run of it ends. -/
def Agrees (rq : ReassemblyQueue) (g : Received) : Prop :=
  ∃ as, rq.Holds as ∧ rq.covered as = g.covered ∧
    (g.above = true → ContiguousTo g.covered rq.rcvNxt ∧ rq.rcvNxt = g.next)

variable {g : Received}

theorem Agrees.clearto (h : rq.Agrees g) (seq : TcpSeq) :
    ∃ rq', (rq.clearto seq).map Prod.fst = .ok rq' ∧
      rq'.Agrees { g with covered := g.covered ∩ Set.Ici seq } := by
  obtain ⟨as, hh, hcov, hnext⟩ := h
  obtain ⟨rq', flag, bs, hok, hh, hcov', hrcv⟩ := hh.clearto seq
  refine ⟨rq', by rw [hok]; rfl, bs, hh, by rw [hcov', hcov], fun ha => ?_⟩
  rw [hrcv]
  exact ⟨(hnext ha).1.inter_Ici, (hnext ha).2⟩

/-- Every call with valid arguments succeeds and does what it should. -/
theorem Agrees.step (h : rq.Agrees g) (hc : c.Valid) :
    ∃ rq', c.step rq = .ok rq' ∧ rq'.Agrees (g.after rq c) := by
  cases c with
  | add sseq eseq tiflags rqflags =>
    obtain ⟨as, hh, hcov, hnext⟩ := h
    obtain ⟨rq', flags, bs, hok, hh, hcov', hleast⟩ := hh.add hc tiflags rqflags
    rw [hcov] at hcov' hleast
    rw [hcov'] at hleast
    refine ⟨rq', by rw [RqCall.step, hok]; rfl, bs, hh, hcov', fun ha => ?_⟩
    obtain ⟨ha, hs⟩ := (Bool.and_eq_true _ _).mp ha
    have hs := of_decide_eq_true hs
    obtain ⟨hcont, hrcv⟩ := hnext ha
    have hleast := hleast hcont hs
    refine ⟨hcont.union (fun x hx => hs.trans hx.1) hleast, ?_⟩
    rw [Received.after, runEnd, ← hrcv, hleast.csInf_eq]
  | clearto seq => exact h.clearto seq
  | cleartonxt => exact h.clearto rq.rcvNxt
  | clear =>
    obtain ⟨as, hh, hcov, hnext⟩ := h
    obtain ⟨rq', hok, hh, hrcv⟩ := hh.threaded.clear
    refine ⟨rq', hok, [], hh, by rw [covered, cover_nil]; rfl, fun ha => ⟨contiguousTo_empty, ?_⟩⟩
    exact hrcv.trans (hnext ha).2
  | init rcvnxt =>
    obtain ⟨as, hh, -, -⟩ := h
    have ht : ({ rq with rcvNxt := rcvnxt }).Threaded as := ⟨hh.threaded.linked, hh.threaded.stacked⟩
    obtain ⟨rq', hok, hh, hrcv⟩ := ht.clear
    exact ⟨rq', hok, [], hh, by rw [covered, cover_nil]; rfl, fun _ => ⟨contiguousTo_empty, hrcv⟩⟩

theorem Agrees.keeps (h : rq.Agrees g) : ∃ fifo lifo, rq.Keeps fifo lifo g.covered := by
  obtain ⟨as, hh, hcov, -⟩ := h
  obtain ⟨stack, hs, hp⟩ := hh.threaded.stacked
  exact ⟨as, stack, hh.threaded.spells, hs, hp, hh.separated, hcov, hh.total⟩

end ReassemblyQueue

open ReassemblyQueue

theorem receiving_invariant : (receiving rcvnxt).Invariant fun p => p.1.Agrees p.2 where
  init p hi := by
    obtain ⟨hf, hg⟩ := hi
    rw [hg]
    exact ⟨[], hf.holds, cover_nil, fun _ => ⟨contiguousTo_empty, hf.rcvNxt⟩⟩
  step p c p' h he hs := by
    obtain ⟨hs, hg⟩ := (Machine.withHistory_step_iff _).mp hs
    obtain ⟨rq', hok, h'⟩ := h.step he
    obtain rfl : rq' = p'.1 := Except.ok.inj (hok.symm.trans hs)
    rwa [hg]

/-- From an empty queue on, whatever is added and cleared, no call fails; the FIFO and the LIFO
hold the same blocks with all links in order; the blocks are not empty, do not touch and are in
increasing order; they cover what has been added and not cleared, and `total_` is its size; and
if nothing has been added below `rcv_nxt_`, it is where the run of received data ends. -/
theorem reassembly_correct {p : ReassemblyQueue × Received}
    (h : (receiving rcvnxt).Reachable p) :
    (∃ fifo lifo, p.1.Keeps fifo lifo p.2.covered) ∧
      (p.2.above = true → p.1.rcvNxt = p.2.next ∧ p.1.rcvNxt ∉ p.2.covered) ∧
      ∀ c : RqCall, c.Valid → ∃ rq', c.step p.1 = .ok rq' ∧
        (receiving rcvnxt).Reachable (rq', p.2.after p.1 c) := by
  have ha := receiving_invariant.reachable h
  refine ⟨ha.keeps, fun habove => ?_, fun c hc => ?_⟩
  · obtain ⟨as, -, -, hnext⟩ := ha
    exact ⟨(hnext habove).2, (hnext habove).1.1⟩
  · obtain ⟨rq', hok, -⟩ := ha.step hc
    exact ⟨rq', hok, h.step hc ((Machine.withHistory_step_iff _).mpr ⟨hok, rfl⟩)⟩

/-- Two blocks, a third one that fills the gap between them, and a part that is cleared. -/
theorem reassembly_correct_four : ∃ p, (receiving 2).Reachable p ∧ p.1.total = 5 ∧
    p.1.rcvNxt = 8 ∧ p.1.rcvNxt = p.2.next ∧ ∃ fifo lifo, p.1.Keeps fifo lifo p.2.covered := by
  obtain ⟨p, h, hp⟩ := (Machine.Reachable.init (M := receiving 2)
    (s := (⟨⟨fun _ => none, fun _ => none, none, none⟩, ⟨fun _ => none, fun _ => none, none, none⟩,
      fun _ => 0, fun _ => 0, fun _ => 0, fun _ => 0, fun _ => 0, none, 0, none, 0, 2⟩,
      ⟨∅, 2, true⟩))
    ⟨⟨rfl, rfl, rfl, rfl, rfl, rfl, [], rfl, List.nodup_nil, by simp⟩, rfl⟩).exists_of_exec
    [.add 2 4 1 0, .add 6 8 2 0, .add 4 6 4 0, .clearto 3]
    (fun p => p.1.total = 5 ∧ p.1.rcvNxt = 8 ∧ p.2.above) (by decide +kernel)
  obtain ⟨ht, hn, ha⟩ := of_decide_eq_true hp
  exact ⟨p, h, ht, hn, ((reassembly_correct h).2.1 ha).1, (reassembly_correct h).1⟩

end Ns2XPass
