import Ns2XPass.Reassembly.NextHole

/-! # Shifted blocks

When all sequence numbers grow by the same amount, so do the holes. The hole is
a number of 64 bits before `nexthole` returns it as an `int`.
-/

namespace Ns2XPass

namespace ReassemblyQueue

variable (rq : ReassemblyQueue)

def shift (k : ℤ) : ReassemblyQueue :=
  { rq with
    startseq := fun p => rq.startseq p + k
    endseq := fun p => rq.endseq p + k
    rcvNxt := rq.rcvNxt + k }

/-- The hole from the block `p` on, as a number of 64 bits. -/
def holeFrom (seq : TcpSeq) : ℕ → Option ℕ → Except RqError (Option TcpSeq × ℤ × ℤ)
  | _, none => .ok (none, -1, -1)
  | 0, some _ => .error .outOfSteps
  | n + 1, some p =>
    if seq < rq.startseq p then do
      return (some seq, ← rq.cnts (rq.brk + 1) (some p) 0 0)
    else if rq.startseq p ≤ seq ∧ seq ≤ rq.endseq p then
      match rq.fifo.next p with
      | some q => do return (some (rq.endseq p), ← rq.cnts (rq.brk + 1) (some q) 0 0)
      | none => return (some (rq.endseq p), -1, -1)
    else holeFrom seq n (rq.fifo.next p)

def hole (seq : TcpSeq) : Except RqError (Option TcpSeq × ℤ × ℤ) :=
  rq.holeFrom seq (rq.brk + 1) rq.fifo.head

/-- The result of `nexthole`. -/
def holeInt : Option TcpSeq → ℤ
  | none => -1
  | some v => wrap32 v

variable {rq : ReassemblyQueue} {n : ℕ} {p : Option ℕ} {seq k b c : ℤ}

@[simp] theorem shift_fifo : (rq.shift k).fifo = rq.fifo := rfl

@[simp] theorem shift_brk : (rq.shift k).brk = rq.brk := rfl

@[simp] theorem shift_startseq (a : ℕ) : (rq.shift k).startseq a = rq.startseq a + k := rfl

@[simp] theorem shift_endseq (a : ℕ) : (rq.shift k).endseq a = rq.endseq a + k := rfl

@[simp] theorem shift_rcvNxt : (rq.shift k).rcvNxt = rq.rcvNxt + k := rfl

theorem cnts_shift : (rq.shift k).cnts n p b c = rq.cnts n p b c := by
  induction n generalizing p b c with
  | zero => cases p <;> rfl
  | succ n ih =>
    cases p with
    | none => rfl
    | some p =>
      have hlen : rq.endseq p + k - (rq.startseq p + k) = rq.endseq p - rq.startseq p := by ring
      rw [cnts, cnts, ih]
      change rq.cnts n _ _ (wrap32 (c + (rq.endseq p + k - (rq.startseq p + k)))) = _
      rw [hlen]
      rfl

theorem nextholeFrom_eq : rq.nextholeFrom seq n p =
    (rq.holeFrom seq n p).map fun r => (holeInt r.1, r.2) := by
  induction n generalizing p with
  | zero => cases p <;> rfl
  | succ n ih =>
    cases p with
    | none => rfl
    | some p =>
      rw [nextholeFrom, holeFrom]
      split_ifs
      · cases rq.cnts (rq.brk + 1) (some p) 0 0 <;> rfl
      · cases rq.fifo.next p with
        | none => rfl
        | some q => cases h : rq.cnts (rq.brk + 1) (some q) 0 0 <;> simp [h] <;> rfl
      · exact ih

theorem holeFrom_shift : (rq.shift k).holeFrom (seq + k) n p =
    (rq.holeFrom seq n p).map fun r => (r.1.map (· + k), r.2) := by
  induction n generalizing p with
  | zero => cases p <;> rfl
  | succ n ih =>
    cases p with
    | none => rfl
    | some p =>
      rw [holeFrom, holeFrom]
      simp only [shift_startseq, shift_endseq, shift_fifo, shift_brk, cnts_shift,
        add_lt_add_iff_right, add_le_add_iff_right]
      split_ifs
      · cases rq.cnts (rq.brk + 1) (some p) 0 0 <;> rfl
      · cases rq.fifo.next p with
        | none => rfl
        | some q => cases h : rq.cnts (rq.brk + 1) (some q) 0 0 <;> simp [h] <;> rfl
      · exact ih

/-- `nexthole` returns the hole as an `int`, or -1 if there is none. -/
theorem nexthole_eq (rq : ReassemblyQueue) (seq : TcpSeq) :
    rq.nexthole seq = (rq.hole seq).map fun r =>
      ({ rq with hint := rq.fifo.head }, holeInt r.1, r.2) := by
  rw [nexthole, nextholeFrom_eq, ← hole]
  cases rq.hole seq <;> rfl

theorem hole_shift (rq : ReassemblyQueue) (seq k : ℤ) :
    (rq.shift k).hole (seq + k) = (rq.hole seq).map fun r => (r.1.map (· + k), r.2) :=
  holeFrom_shift

/-- In a well-formed queue every search ends. -/
theorem Stores.hole {as : List ℕ} (h : rq.Stores as) (seq : TcpSeq) :
    ∃ v nxtcnt nxtbytes, rq.hole seq = .ok (v, nxtcnt, nxtbytes) := by
  obtain ⟨r, nxtcnt, nxtbytes, hr, -⟩ := h.nexthole seq
  rw [nexthole_eq] at hr
  cases hv : rq.hole seq with
  | error e => rw [hv] at hr; cases hr
  | ok r => exact ⟨r.1, r.2.1, r.2.2, rfl⟩

/-- The result of `nexthole` moves along with the blocks, as long as the hole stays in the range of
`int`. -/
theorem Stores.nexthole_shift {as : List ℕ} (h : rq.Stores as) (seq : TcpSeq) (hk : 0 ≤ k) :
    ∃ v nxtcnt nxtbytes r r' rq' rq'', rq.hole seq = .ok (v, nxtcnt, nxtbytes) ∧
      rq.nexthole seq = .ok (rq', r, nxtcnt, nxtbytes) ∧
      (rq.shift k).nexthole (seq + k) = .ok (rq'', r', nxtcnt, nxtbytes) ∧
      (v = none → r = -1 ∧ r' = -1) ∧ ∀ w, v = some w → (r' = r + k ↔ wrap32 w + k < 2 ^ 31) := by
  obtain ⟨v, nxtcnt, nxtbytes, hv⟩ := h.hole seq
  refine ⟨v, nxtcnt, nxtbytes, holeInt v, holeInt (v.map (· + k)),
    { rq with hint := rq.fifo.head }, { rq.shift k with hint := rq.fifo.head }, hv, ?_, ?_, ?_, ?_⟩
  · rw [nexthole_eq, hv]
    rfl
  · rw [nexthole_eq, hole_shift, hv]
    rfl
  · rintro rfl
    exact ⟨rfl, rfl⟩
  · rintro w rfl
    exact wrap32_add_eq_iff hk

end ReassemblyQueue

end Ns2XPass
