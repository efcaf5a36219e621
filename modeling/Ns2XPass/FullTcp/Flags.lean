import Ns2XPass.FullTcp.Input
import Ns2XPass.Library.Except
import Ns2XPass.Reassembly.Flags

/-! # The flags that are received

The flags that `add` returns are those of the block that contains the segment,
and `reass` passes them on as soon as the segment is in order. A FIN that arrives
before the data in front of it is received with the last of this data.
-/

namespace Ns2XPass

variable {rcvnxt : TcpSeq} {rq : ReassemblyQueue} {l : List Added} {as stack : List ℕ}

open ReassemblyQueue

/-- Whether the range is ignored or not, `add` returns the flags of the block that contains it. -/
theorem ReassemblyQueue.Tracks.returns {s e : TcpSeq} {f : TcpFlag} (h : rq.Tracks l as stack)
    (hse : s ≤ e) (hs : rq.Spares s e f) (rqflags : RqFlag) :
    ∃ rq' flags as' stack' b, rq.add s e f rqflags = .ok (rq', flags) ∧
      rq'.Tracks (⟨s, e, f⟩ :: l) as' stack' ∧ b ∈ as' ∧ rq'.Lies b ⟨s, e, f⟩ ∧
      flags = rq'.pflags b := by
  by_cases hi : rq.Ignored as s e
  · obtain ⟨rq', b, hok, h', hb, hlies, hf⟩ := h.add_ignored hse hs hi rqflags
    exact ⟨rq', f, as, stack, b, hok, h', hb, hlies, hf⟩
  · exact h.add hse hs hi rqflags

/-- A segment in order is received with the flags that `add` returns. -/
theorem FullTcp.reass_among {a : FullTcp} {p : TcpSegment} {t : FullTcp.Trimmed}
    {rq' : ReassemblyQueue} {flags : TcpFlag}
    (hok : a.rq.add t.seqno (t.seqno + t.length) p.flags 0 = .ok (rq', flags))
    (hl : rq'.Tracks l as stack) (hseq : t.seqno = a.rcvNxt)
    (hfin : t.length = 0 → p.flags.has .fin = true) :
    ∃ a' received, a.reass p t = .ok (a', received) ∧ Among flags received := by
  obtain ⟨rq'', cleared, hok', -⟩ := hl.listed.clearto hl.ordered rq'.rcvNxt
  have hcond : ¬ (t.length = 0 ∧ ¬ p.flags.has .fin) := fun hz => hz.2 (hfin hz.1)
  refine ⟨{ a with rq := rq'' }, flags ||| cleared, ?_, ?_⟩
  · rw [reass, if_neg hcond, hok]
    have hfill : decide (t.seqno = a.rcvNxt) = true := decide_eq_true hseq
    have hclear : rq'.cleartonxt = .ok (rq'', cleared) := hok'
    simp only [hfill, not_true, if_false, Except.mapError, hclear, bind, Except.bind, pure,
      Except.pure]
  · rw [Among, ← BitVec.or_assoc, BitVec.or_self]

/-- From an empty queue on, in a run in which no call loses any flags, every block bears the OR of
the flags of the segments that lie in it, and every call that loses no flags succeeds. An `add`
returns this OR for the block that contains its segment, and when the segment is in order, `reass`
passes on all of these flags. -/
theorem flags_kept {p : ReassemblyQueue × List Added} (h : (sparing rcvnxt).Reachable p) :
    (∀ b ∈ p.1.blocks, p.1.pflags b = flagsIn p.2 (p.1.startseq b) (p.1.endseq b)) ∧
      (∀ c : RqCall, c.Proper → c.SparesFlags p.1 p.2 → ∃ rq', c.step p.1 = .ok rq' ∧
        (sparing rcvnxt).Reachable (rq', c.arrive p.1 p.2)) ∧
      (∀ s e f rqflags, s ≤ e → p.1.Spares s e f → ∃ rq' flags b,
        p.1.add s e f rqflags = .ok (rq', flags) ∧ b ∈ rq'.blocks ∧ rq'.startseq b ≤ s ∧
          e ≤ rq'.endseq b ∧
          flags = flagsIn (⟨s, e, f⟩ :: p.2) (rq'.startseq b) (rq'.endseq b)) ∧
      ∀ (a : FullTcp) (seg : TcpSegment) (t : FullTcp.Trimmed), a.rq = p.1 → t.seqno = a.rcvNxt →
        0 ≤ t.length → (t.length = 0 → seg.flags.has .fin = true) →
        p.1.Spares t.seqno (t.seqno + t.length) seg.flags → ∃ rq' flags a' received,
          p.1.add t.seqno (t.seqno + t.length) seg.flags 0 = .ok (rq', flags) ∧
          a.reass seg t = .ok (a', received) ∧ Among flags received := by
  obtain ⟨as, stack, ht⟩ := sparing_invariant.reachable h
  refine ⟨fun b hb => ?_, fun c hc hs => ?_, fun s e f rqflags hse hs => ?_,
    fun a seg t ha hseq hlen hfin hs => ?_⟩
  · rw [ht.listed.blocks_eq] at hb
    exact ht.pflags_eq hb
  · obtain ⟨rq', as', stack', hok, -⟩ := ht.step hc hs
    have hstep : (arrivals rcvnxt).step p c = .ok (rq', c.arrive p.1 p.2) :=
      (Machine.withHistory_step_iff _).mpr ⟨hok, rfl⟩
    exact ⟨rq', hok, h.step ⟨hc, hs⟩ hstep⟩
  · obtain ⟨rq', flags, as', stack', b, hok, ht', hb, hlies, rfl⟩ := ht.returns hse hs rqflags
    refine ⟨rq', _, b, hok, ?_, hlies.1, hlies.2, ht'.pflags_eq hb⟩
    rwa [ht'.listed.blocks_eq]
  · have hse : t.seqno ≤ t.seqno + t.length := le_add_of_nonneg_right hlen
    obtain ⟨rq', flags, as', stack', b, hok, ht', -⟩ := ht.returns hse hs 0
    obtain ⟨a', received, hreass, hamong⟩ :=
      FullTcp.reass_among (ha ▸ hok : a.rq.add _ _ _ 0 = _) ht' hseq hfin
    exact ⟨rq', flags, a', received, hok, hreass, hamong⟩

/-- A FIN that arrives first is borne by the block that grows towards it. -/
theorem flags_kept_fin : ∃ p, (sparing 1).Reachable p ∧ p.1.blocks.map p.1.pflags = [0x11, 0x18] ∧
    ∀ b ∈ p.1.blocks, p.1.pflags b = flagsIn p.2 (p.1.startseq b) (p.1.endseq b) := by
  obtain ⟨p, h, hp⟩ := (Machine.Reachable.init (M := sparing 1)
    (s := (⟨⟨fun _ => none, fun _ => none, none, none⟩, ⟨fun _ => none, fun _ => none, none, none⟩,
      fun _ => 0, fun _ => 0, fun _ => 0, fun _ => 0, fun _ => 0, none, 0, none, 0, 1⟩, []))
    ⟨⟨rfl, rfl, rfl, rfl, rfl, rfl, [], rfl, List.nodup_nil, by simp⟩, rfl⟩).exists_of_exec
    [.add 5 5 0x11 0, .add 7 9 0x18 0, .add 3 5 0x10 0, .add 1 3 0x10 0, .clearto 2]
    (fun p => p.1.blocks.map p.1.pflags = [0x11, 0x18]) (by decide +kernel)
  exact ⟨p, h, of_decide_eq_true hp, (flags_kept h).1⟩

/-- A segment closes the gap between two blocks, and the FIN of the second one is lost. -/
theorem flags_lost : ∃ p rq' flags, (arrivals 1).Reachable p ∧
    p.1.add 2 3 0x10 0 = .ok (rq', flags) ∧ flags = 0x10 ∧ ∃ b ∈ rq'.blocks,
      rq'.pflags b = 0x10 ∧
        flagsIn (⟨2, 3, 0x10⟩ :: p.2) (rq'.startseq b) (rq'.endseq b) = 0x11 := by
  obtain ⟨p, h, hp⟩ := (Machine.Reachable.init (M := arrivals 1)
    (s := (⟨⟨fun _ => none, fun _ => none, none, none⟩, ⟨fun _ => none, fun _ => none, none, none⟩,
      fun _ => 0, fun _ => 0, fun _ => 0, fun _ => 0, fun _ => 0, none, 0, none, 0, 1⟩, []))
    ⟨⟨rfl, rfl, rfl, rfl, rfl, rfl, [], rfl, List.nodup_nil, by simp⟩, rfl⟩).exists_of_exec
    [.add 1 2 0x10 0, .add 3 4 0x11 0]
    (fun p => (p.1.add 2 3 0x10 0).toOption.any (fun r => r.2 = 0x10 ∧ ∃ b ∈ r.1.blocks,
      r.1.pflags b = 0x10 ∧ flagsIn (⟨2, 3, 0x10⟩ :: p.2) (r.1.startseq b) (r.1.endseq b) = 0x11))
    (by decide +kernel)
  obtain ⟨r, hok, hflags, hb⟩ := exists_of_toOption_any hp
  exact ⟨p, r.1, r.2, h, hok, hflags, hb⟩

end Ns2XPass
