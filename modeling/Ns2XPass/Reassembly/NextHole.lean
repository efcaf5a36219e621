import Ns2XPass.Common.Numeric
import Ns2XPass.Reassembly.Insertion

/-! # The next hole

`nexthole` looks for the first missing sequence number from a given one on. It
also counts the blocks above this hole. Its results are of type `int`.
-/

namespace Ns2XPass

namespace ReassemblyQueue

variable (rq : ReassemblyQueue)

/-- The loop of `cnts` at the block `p`: how many blocks there are and the sum of their
lengths. -/
def cnts : ℕ → Option ℕ → ℤ → ℤ → Except RqError (ℤ × ℤ)
  | _, none, blks, bytes => .ok (blks, bytes)
  | 0, some _, _, _ => .error .outOfSteps
  | n + 1, some p, blks, bytes =>
    cnts n (rq.fifo.next p) (wrap32 (blks + 1)) (wrap32 (bytes + (rq.endseq p - rq.startseq p)))

/-- The loop of `nexthole` at the block `p`. It yields the hole, `nxtcnt` and `nxtbytes`. -/
def nextholeFrom (seq : TcpSeq) : ℕ → Option ℕ → Except RqError (ℤ × ℤ × ℤ)
  | _, none => .ok (-1, -1, -1)
  | 0, some _ => .error .outOfSteps
  | n + 1, some p =>
    if seq < rq.startseq p then do
      return (wrap32 seq, ← rq.cnts (rq.brk + 1) (some p) 0 0)
    else if rq.startseq p ≤ seq ∧ seq ≤ rq.endseq p then
      match rq.fifo.next p with
      | some q => do return (wrap32 (rq.endseq p), ← rq.cnts (rq.brk + 1) (some q) 0 0)
      | none => return (wrap32 (rq.endseq p), -1, -1)
    else nextholeFrom seq n (rq.fifo.next p)

def nexthole (seq : TcpSeq) : Except RqError (ReassemblyQueue × ℤ × ℤ × ℤ) := do
  return ({ rq with hint := rq.fifo.head }, ← rq.nextholeFrom seq (rq.brk + 1) rq.fifo.head)

variable {rq : ReassemblyQueue} {as pre post : List ℕ} {a n : ℕ} {seq : TcpSeq}

theorem cnts_eq (hs : Segment rq.fifo.next as.head? as none) (hn : as.length < n)
    (blks bytes : ℤ) : ∃ blks' bytes', rq.cnts n as.head? blks bytes = .ok (blks', bytes') := by
  induction as generalizing n blks bytes with
  | nil => exact ⟨blks, bytes, by cases n <;> rfl⟩
  | cons a as ih =>
    obtain ⟨n, rfl⟩ : ∃ k, n = k + 1 := ⟨n - 1, by omega⟩
    obtain ⟨-, hs⟩ := hs
    have hnext : rq.fifo.next a = as.head? := hs.start_eq_head?
    rw [hnext] at hs
    rw [List.head?_cons, cnts, hnext]
    exact ih hs (Nat.lt_of_succ_lt_succ hn) _ _

/-- The hole `v`, which is the number itself or the end of a block. Any blocks that are counted
lie above it. -/
structure Hole (rq : ReassemblyQueue) (as : List ℕ) (seq v : TcpSeq) (nxtcnt : ℤ) : Prop where
  ge : seq ≤ v
  missing : v ∉ rq.covered as
  below : 0 < nxtcnt → ∃ a ∈ as, v < rq.startseq a
  source : v = seq ∨ ∃ a ∈ as, v = rq.endseq a

theorem Stores.nextholeFrom (h : rq.Stores (pre ++ post)) (hpre : ∀ x ∈ pre, rq.endseq x < seq)
    (hn : post.length < n) :
    ∃ r nxtcnt nxtbytes, rq.nextholeFrom seq n post.head? = .ok (r, nxtcnt, nxtbytes) ∧
      (r = -1 ∨ ∃ v, r = wrap32 v ∧ Hole rq (pre ++ post) seq v nxtcnt) := by
  induction post generalizing pre n with
  | nil => exact ⟨-1, -1, -1, by cases n <;> rfl, .inl rfl⟩
  | cons p post ih =>
    obtain ⟨n, rfl⟩ : ∃ k, n = k + 1 := ⟨n - 1, by omega⟩
    have hlen := h.threaded.length_le
    rw [List.length_append, List.length_cons] at hlen
    have hnext : rq.fifo.next p = post.head? := h.threaded.spells.next_eq
    obtain ⟨-, hsep, -⟩ := ordered_append.mp h.ordered
    obtain ⟨hle, hgt, -⟩ := ordered_cons.mp hsep
    have hcnts : ∀ pre' todo, pre ++ p :: post = pre' ++ todo → todo.length ≤ rq.brk →
        ∃ c, rq.cnts (rq.brk + 1) todo.head? 0 0 = .ok c := fun pre' todo he hl => by
      have hs := he ▸ h.threaded.spells.forward
      obtain ⟨m, -, hs⟩ := segment_append.mp hs
      obtain rfl := hs.start_eq_head?
      obtain ⟨b, c, hc⟩ := cnts_eq hs (Nat.lt_succ_of_le hl) 0 0
      exact ⟨(b, c), hc⟩
    rw [List.head?_cons, ReassemblyQueue.nextholeFrom]
    split_ifs with hlt hin
    · obtain ⟨⟨c, b⟩, hc⟩ := hcnts pre (p :: post) rfl (by rw [List.length_cons]; omega)
      rw [List.head?_cons] at hc
      rw [hc]
      refine ⟨_, _, _, rfl, .inr ⟨seq, rfl, le_rfl, ?_, fun _ => ⟨p, by simp, hlt⟩, .inl rfl⟩⟩
      rintro ⟨x, hx, hlo, hhi⟩
      rcases List.mem_append.mp hx with hx | hx
      · exact (hpre x hx).not_gt hhi
      · rcases List.mem_cons.mp hx with rfl | hx
        · exact hlt.not_ge hlo
        · exact hlt.not_ge ((hle.trans (hgt x hx).le).trans hlo)
    · have hmiss := h.ordered.hi_notMem_cover (a := p) (by simp)
      rw [hnext]
      cases post with
      | nil =>
        exact ⟨_, _, _, rfl, .inr ⟨rq.endseq p, rfl, hin.2, hmiss, by simp, .inr ⟨p, by simp, rfl⟩⟩⟩
      | cons q post =>
        obtain ⟨⟨c, b⟩, hc⟩ := hcnts (pre ++ [p]) (q :: post) (by simp) (by omega)
        rw [List.head?_cons] at hc ⊢
        dsimp only
        rw [hc]
        exact ⟨_, _, _, rfl, .inr ⟨rq.endseq p, rfl, hin.2, hmiss,
          fun _ => ⟨q, by simp, hgt q List.mem_cons_self⟩, .inr ⟨p, by simp, rfl⟩⟩⟩
    · have hend : rq.endseq p < seq := not_le.mp fun hle => hin ⟨not_lt.mp hlt, hle⟩
      have hlist : pre ++ p :: post = pre ++ [p] ++ post := by simp
      rw [hnext, hlist]
      rw [hlist] at h
      exact ih h (List.forall_mem_append.mpr ⟨hpre, by simpa using hend⟩)
        (Nat.lt_of_succ_lt_succ hn)

/-- The hole that is found, unless all blocks end before the number. -/
theorem Stores.nexthole (h : rq.Stores as) (seq : TcpSeq) :
    ∃ r nxtcnt nxtbytes,
      rq.nexthole seq = .ok ({ rq with hint := rq.fifo.head }, r, nxtcnt, nxtbytes) ∧
      (r = -1 ∨ ∃ v, r = wrap32 v ∧ Hole rq as seq v nxtcnt) := by
  have h' : rq.Stores ([] ++ as) := h
  have hpre : ∀ x ∈ ([] : List ℕ), rq.endseq x < seq := by simp
  obtain ⟨r, nxtcnt, nxtbytes, hr, hhole⟩ :=
    h'.nextholeFrom hpre (Nat.lt_succ_of_le h.threaded.length_le)
  rw [ReassemblyQueue.nexthole, h.threaded.spells.head_eq, hr]
  exact ⟨r, nxtcnt, nxtbytes, rfl, hhole⟩

end ReassemblyQueue

end Ns2XPass
