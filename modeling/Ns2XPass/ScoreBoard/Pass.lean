import Mathlib.Data.List.TakeWhile
import Ns2XPass.ScoreBoard.LinuxRuns

/-! # A pass over the scoreboard of TCP-Linux

A pass that learns nothing new stops behind the last block. What it does to a
packet depends on the blocks and on the node of the packet, and not on the
nodes that the pass has visited before.
-/

namespace Ns2XPass

open ScoreBoardNode1

variable {sb : ScoreBoard1} {f : ScoreBoard1Fields} {n m : ScoreBoardNode1}
  {ns pre post : List ScoreBoardNode1} {sacks : List (ℤ × ℤ)} {a b lastAck q d : ℤ}

/-- The packets of a node are those from its first to its last one. -/
theorem inside_iff : n.Inside q ↔ n.seq ≤ q ∧ q ≤ n.getEnd := by
  unfold Inside getEnd
  split_ifs
  · omega
  · rfl

theorem Blocks.inside_unique (h : Blocks a ns b) (hn : n ∈ ns) (hm : m ∈ ns) (hnq : n.Inside q)
    (hmq : m.Inside q) : n = m :=
  h.eq_of_mem hn hm (inside_iff.mp hnq) (inside_iff.mp hmq)

/-- A packet lies in a lost block. -/
def LiesLost (ns : List ScoreBoardNode1) (q : ℤ) : Prop := ∃ n ∈ ns, n.flag = .lost ∧ n.Inside q

/-- No block covers a packet. -/
def Uncovered (sacks : List (ℤ × ℤ)) (q : ℤ) : Prop := ∀ s ∈ sacks, ¬ (s.1 ≤ q ∧ q < s.2)

namespace ScoreBoardNode1

/-- A pass that learns nothing new leaves an uncovered packet of the node lost. -/
def Falls (f : ScoreBoard1Fields) (dupackThreshold : ℤ) (n : ScoreBoardNode1) (q : ℤ) : Prop :=
  match n.flag with
  | .lost => True
  | .inflight => q ≤ f.fack - (dupackThreshold + 1)
  | .retransmitted => n.nxt ≤ f.fack ∨ n.retran + dupackThreshold + 1 < f.ackedRtxId
  | .sacked => False

/-- A part of a node, before a pass visits it. -/
structure PieceOf (n m : ScoreBoardNode1) : Prop where
  flag : m.flag = n.flag
  le : n.seq ≤ m.seq
  end_le : m.getEnd ≤ n.getEnd
  retransmitted : n.flag = .retransmitted → m.nxt = n.nxt ∧ m.retran = n.retran

theorem PieceOf.refl : PieceOf n n := ⟨rfl, le_rfl, le_rfl, fun _ => ⟨rfl, rfl⟩⟩

theorem PieceOf.trans {k : ScoreBoardNode1} (h : PieceOf n m) (h' : PieceOf m k) : PieceOf n k where
  flag := h'.flag.trans h.flag
  le := h.le.trans h'.le
  end_le := h'.end_le.trans h.end_le
  retransmitted hr := by
    obtain ⟨hn, hrt⟩ := h.retransmitted hr
    obtain ⟨hn', hrt'⟩ := h'.retransmitted (h.flag.trans hr)
    exact ⟨hn'.trans hn, hrt'.trans hrt⟩

theorem PieceOf.falls_iff (h : PieceOf n m) : m.Falls f d q ↔ n.Falls f d q := by
  unfold Falls
  rw [h.flag]
  cases hf : n.flag with
  | inflight => rfl
  | sacked => rfl
  | lost => rfl
  | retransmitted =>
    obtain ⟨hn, hr⟩ := h.retransmitted hf
    dsimp only
    rw [hn, hr]

theorem falls_congr {g : ScoreBoard1Fields} (hf : f.fack = g.fack)
    (ha : f.ackedRtxId = g.ackedRtxId) : n.Falls f d q ↔ n.Falls g d q := by
  unfold Falls
  rw [hf, ha]

theorem splitLeft_piece {s : ℤ} (hr : n.flag ≠ .retransmitted) (hle : s ≤ n.getEnd) :
    PieceOf n (n.splitLeft s) := by
  refine ⟨rfl, le_rfl, ?_, fun h => absurd h hr⟩
  have hend : (n.splitLeft s).getEnd = s - 1 := if_neg hr
  omega

theorem splitRight_piece {s : ℤ} {addr : ℕ} (hr : n.flag ≠ .retransmitted) (hle : n.seq ≤ s) :
    PieceOf n (n.splitRight addr s) :=
  ⟨rfl, hle, ((if_neg hr).trans (getEnd_of_ne hr).symm).le, fun h => absurd h hr⟩

end ScoreBoardNode1

namespace Traversal

variable {t u : Traversal}

/-- The node is visited up to some packet. What is left of it stands behind it. -/
structure Cut (t u : Traversal) : Prop where
  seq : u.now.seq = t.now.seq
  end_le : u.now.getEnd ≤ t.now.getEnd
  before : u.before = t.before
  rest : ∀ m ∈ u.rest, m ∈ t.rest ∨ PieceOf t.now m
  sacks : u.sacks = t.sacks
  fack : u.fack = t.fack

theorem Cut.refl : Cut t t := ⟨rfl, le_rfl, rfl, fun _ => .inl, rfl, rfl⟩

theorem Cut.trans {w : Traversal} (h : Cut t u) (hp : PieceOf t.now u.now) (h' : Cut u w) :
    Cut t w where
  seq := h'.seq.trans h.seq
  end_le := h'.end_le.trans h.end_le
  before := h'.before.trans h.before
  rest m hm := by
    rcases h'.rest m hm with hm | hm
    · exact h.rest m hm
    · exact .inr (hp.trans hm)
  sacks := h'.sacks.trans h.sacks
  fack := h'.fack.trans h.fack

/-- A pass that does not learn anything from a step. -/
structure Unchanged (t u : Traversal) : Prop where
  thorough : u.thorough = t.thorough
  ackedRtxId : u.ackedRtxId = t.ackedRtxId

theorem split_cut {s : ℤ} (hr : t.now.flag ≠ .retransmitted) (hlo : t.now.seq < s)
    (hhi : s ≤ t.now.getEnd) :
    Cut t { t with toCursor := t.toCursor.split s } ∧
      PieceOf t.now (t.toCursor.split s).now ∧ (t.toCursor.split s).now.getEnd = s - 1 := by
  have hpiece := splitLeft_piece hr hhi
  refine ⟨⟨rfl, hpiece.end_le, rfl, fun m hm => ?_, rfl, rfl⟩, hpiece, if_neg hr⟩
  rcases List.mem_cons.mp hm with rfl | hm
  · exact .inr (splitRight_piece hr hlo.le)
  · exact .inl hm

/-- The verdict on an uncovered node. -/
theorem check_cut (d : ℤ) :
    Cut t (t.check d) ∧ Unchanged t (t.check d) ∧
      ((t.now.flag ≠ .sacked) → ∀ q, t.now.seq ≤ q → q ≤ (t.check d).now.getEnd →
        ((t.check d).now.flag = .lost ↔ t.now.Falls t.toScoreBoard1Fields d q)) := by
  have hend : (t.now.setFlag .lost).getEnd = t.now.getEnd := getEnd_setFlag (by simp)
  have hlose : Cut t t.lose ∧ Unchanged t t.lose :=
    ⟨⟨rfl, hend.le, rfl, fun _ => .inl, rfl, rfl⟩, rfl, rfl⟩
  rw [check]
  dsimp only
  unfold Falls
  cases hf : t.now.flag with
  | sacked => exact ⟨.refl, ⟨rfl, rfl⟩, fun h => absurd rfl h⟩
  | lost => exact ⟨⟨rfl, le_rfl, rfl, fun _ => .inl, rfl, rfl⟩, ⟨rfl, rfl⟩,
      fun _ q _ _ => iff_of_true hf trivial⟩
  | retransmitted =>
    dsimp only
    split_ifs with hc
    · exact ⟨hlose.1, hlose.2, fun _ q _ _ => iff_of_true rfl hc⟩
    · exact ⟨.refl, ⟨rfl, rfl⟩, fun _ q _ _ => iff_of_false (by simp [hf]) hc⟩
  | inflight =>
    dsimp only
    split_ifs with hlo hhi
    · obtain ⟨hcut, hpiece, hend'⟩ := split_cut (t := t) (s := t.fack - (d + 1) + 1)
        (by simp [hf]) (by omega) (by omega)
      have hcut' : Cut { t with toCursor := t.toCursor.split (t.fack - (d + 1) + 1) }
          (lose { t with toCursor := t.toCursor.split (t.fack - (d + 1) + 1) }) :=
        ⟨rfl, (getEnd_setFlag (by simp)).le, rfl, fun _ => .inl, rfl, rfl⟩
      refine ⟨hcut.trans hpiece hcut', ⟨rfl, rfl⟩, fun _ q _ hq => iff_of_true rfl ?_⟩
      have hle' : q ≤ (t.toCursor.split (t.fack - (d + 1) + 1)).now.getEnd :=
        hq.trans hcut'.end_le
      omega
    · refine ⟨hlose.1, hlose.2, fun _ q _ hq => iff_of_true rfl ?_⟩
      have := hlose.1.end_le
      omega
    · exact ⟨.refl, ⟨rfl, rfl⟩, fun _ q hq _ => iff_of_false (by simp [hf]) (by omega)⟩

theorem sack_cut :
    Cut t t.sack ∧ t.sack.now.flag = .sacked ∧ t.sack.now.getEnd = t.now.getEnd ∧
      (t.now.flag ≠ .retransmitted → Unchanged t t.sack) ∧
      (t.now.flag = .retransmitted → t.sack.thorough = true) := by
  have hend : (t.now.setFlag .sacked).getEnd = t.now.getEnd := getEnd_setFlag (by simp)
  rw [sack]
  cases t.now.flag with
  | sacked => exact ⟨⟨rfl, hend.le, rfl, fun _ => .inl, rfl, rfl⟩, rfl, hend, fun _ => ⟨rfl, rfl⟩,
      by simp⟩
  | lost => exact ⟨⟨rfl, hend.le, rfl, fun _ => .inl, rfl, rfl⟩, rfl, hend, fun _ => ⟨rfl, rfl⟩,
      by simp⟩
  | inflight => exact ⟨⟨rfl, hend.le, rfl, fun _ => .inl, rfl, rfl⟩, rfl, hend,
      fun _ => ⟨rfl, rfl⟩, by simp⟩
  | retransmitted => exact ⟨⟨rfl, hend.le, rfl, fun _ => .inl, rfl, rfl⟩, rfl, hend,
      fun h => absurd rfl h, fun _ => rfl⟩

/-- A part of the node that no block covers. -/
structure Spared (t u : Traversal) : Prop where
  uncovered : u.uncovered = true
  unchanged : Unchanged t u
  piece : PieceOf t.now u.now
  before_blocks : ∀ q ≤ u.now.getEnd, ∀ s ∈ t.sacks, q < s.1

/-- A part of the node that a block covers. -/
structure Covered (t u : Traversal) : Prop where
  uncovered : u.uncovered = false
  flag : u.now.flag = .sacked
  unchanged : t.now.flag ≠ .retransmitted → Unchanged t u
  thorough : t.now.flag = .retransmitted → u.thorough = true
  start : t.now.seq ≤ u.now.getEnd
  block : ∃ s ∈ t.sacks, ∀ q, t.now.seq ≤ q → q ≤ u.now.getEnd → s.1 ≤ q ∧ q < s.2

/-- The first block behind the start of the node covers its first part or spares it. -/
theorem cover_cut (hle : t.now.seq ≤ t.now.getEnd) (hr : ∀ s ∈ t.sacks.head?, t.now.seq < s.2)
    (hsort : t.sacks.Pairwise fun s s' => s.1 ≤ s'.1) :
    Cut t t.cover ∧ (Spared t t.cover ∨ Covered t t.cover) := by
  rw [cover]
  split
  · next hs =>
    refine ⟨.refl, .inl ⟨by rw [uncovered, hs], ⟨rfl, rfl⟩, .refl, fun q _ s hmem => ?_⟩⟩
    rw [hs] at hmem
    exact absurd hmem (by simp)
  · next left right sacks hs =>
    have hright : t.now.seq < right := hr _ (by rw [hs]; rfl)
    have hmem : (left, right) ∈ t.sacks := by rw [hs]; exact List.mem_cons_self
    rw [hs, List.pairwise_cons] at hsort
    have hbefore : ∀ q < left, ∀ s ∈ t.sacks, q < s.1 := fun q hq s hmem => by
      rw [hs] at hmem
      rcases List.mem_cons.mp hmem with rfl | hmem
      · exact hq
      · exact hq.trans_le (hsort.1 s hmem)
    have hunc : ∀ u : Traversal, u.sacks = t.sacks → u.uncovered = decide (u.now.getEnd < left) :=
      fun u hu => by rw [uncovered, hu, hs]
    have hsplit : ∀ {s}, t.now.seq < s → s ≤ t.now.getEnd → t.now.flag ≠ .retransmitted :=
      fun hlt hle hf => (hlt.trans_le hle).ne (if_pos hf).symm
    split_ifs with hshare hlt hin
    · obtain ⟨hcut, hpiece, hend⟩ := split_cut (hsplit hlt hshare) hlt hshare
      refine ⟨hcut, .inl ⟨?_, ⟨rfl, rfl⟩, hpiece, fun q hq => hbefore q ?_⟩⟩
      · refine (hunc { t with toCursor := t.toCursor.split left } rfl).trans (decide_eq_true ?_)
        change (t.toCursor.split left).now.getEnd < left
        omega
      · change q ≤ (t.toCursor.split left).now.getEnd at hq
        omega
    · obtain ⟨hcut, hpiece, hend⟩ := split_cut (hsplit hright hin) hright hin
      obtain ⟨hcut', hf, hend', hun, -⟩ := sack_cut
        (t := { t with toCursor := t.toCursor.split right })
      have hend'' : (sack { t with toCursor := t.toCursor.split right }).now.getEnd = right - 1 :=
        hend'.trans hend
      refine ⟨hcut.trans hpiece hcut', .inr ⟨?_, hf, fun hn => ?_, fun h => ?_, ?_,
        (left, right), hmem, fun q hlo hhi => ?_⟩⟩
      · refine (hunc _ hcut'.sacks).trans (decide_eq_false ?_)
        change ¬ (sack { t with toCursor := t.toCursor.split right }).now.getEnd < left
        omega
      · obtain ⟨ht, ha⟩ := hun hn
        exact ⟨ht, ha⟩
      · exact absurd h (hsplit hright hin)
      · rw [hend'']
        omega
      · rw [hend''] at hhi
        dsimp only
        omega
    · obtain ⟨hcut', hf, hend', hun, hrt⟩ := sack_cut (t := t)
      refine ⟨hcut', .inr ⟨?_, hf, hun, hrt, hle.trans_eq hend'.symm, (left, right), hmem,
        fun q hlo hhi => ?_⟩⟩
      · refine (hunc _ hcut'.sacks).trans (decide_eq_false ?_)
        omega
      · rw [hend'] at hhi
        dsimp only
        omega
    · refine ⟨.refl, .inl ⟨?_, ⟨rfl, rfl⟩, .refl, fun q hq => hbefore q (by omega)⟩⟩
      exact (hunc _ rfl).trans (decide_eq_true (not_le.mp hshare))

/-- What becomes of a node in a step that learns nothing new. -/
structure Judged (d : ℤ) (t u : Traversal) : Prop where
  seq : u.now.seq = t.now.seq
  end_le : u.now.getEnd ≤ t.now.getEnd
  before : u.before = t.before
  rest : ∀ m ∈ u.rest, m ∈ t.rest ∨ PieceOf t.now m
  fack : u.fack = t.fack
  unchanged : Unchanged t u
  dropped : ∃ dropped, t.sacks = dropped ++ u.sacks ∧ ∀ s ∈ dropped, s.2 ≤ t.now.seq
  passed : t.now.flag ≠ .sacked → u.sacks ≠ [] → ∃ s ∈ u.sacks, u.now.getEnd < s.2
  stays : t.now.flag = .sacked → u.sacks = t.sacks
  verdict : ∀ q, t.now.seq ≤ q → q ≤ u.now.getEnd →
    (u.now.flag = .lost ↔ Uncovered t.sacks q ∧ t.now.Falls t.toScoreBoard1Fields d q)
  retransmitted : t.now.flag = .retransmitted → Uncovered t.sacks t.now.seq

theorem process_judged (d : ℤ) (hle : t.now.seq ≤ t.now.getEnd)
    (hsort : t.sacks.Pairwise fun s s' => s.1 ≤ s'.1) (hprop : ∀ s ∈ t.sacks, s.1 < s.2) :
    Judged d t (t.process d) ∨ (t.process d).thorough = true ∧ t.now.flag = .retransmitted ∧
      ¬ Uncovered t.sacks t.now.seq := by
  rw [process]
  by_cases hne : t.now.flag ≠ .sacked
  · rw [if_pos hne]
    have hsub : t.find.sacks.Sublist t.sacks := List.dropWhile_sublist _
    obtain ⟨dropped, hdrop, hdropped⟩ : ∃ dropped, t.sacks = dropped ++ t.find.sacks ∧
        ∀ s ∈ dropped, s.2 ≤ t.now.seq :=
      ⟨t.sacks.takeWhile fun s => s.2 ≤ t.now.seq, List.takeWhile_append_dropWhile.symm,
        fun s hs => by simpa using List.mem_takeWhile_imp hs⟩
    have hunc : ∀ q, t.now.seq ≤ q → (Uncovered t.sacks q ↔ Uncovered t.find.sacks q) := by
      intro q hq
      refine ⟨fun h s hs => h s (hsub.subset hs), fun h s hs => ?_⟩
      rw [hdrop] at hs
      rcases List.mem_append.mp hs with hs | hs
      · have := hdropped s hs
        omega
      · exact h s hs
    have hr : ∀ s ∈ t.find.sacks.head?, t.find.now.seq < s.2 := fun s hs => by
      change s ∈ (t.sacks.dropWhile fun s => s.2 ≤ t.now.seq).head? at hs
      have hnot := List.head?_dropWhile_not (fun s : ℤ × ℤ => s.2 ≤ t.now.seq) t.sacks
      rw [Option.mem_def.mp hs] at hnot
      exact not_le.mp (of_decide_eq_false hnot)
    obtain ⟨hcut, hs | hc⟩ := cover_cut (t := t.find) hle hr (hsort.sublist hsub)
    · left
      obtain ⟨hcut', hun, hv⟩ := check_cut (t := t.find.cover) d
      have htot := hcut.trans hs.piece hcut'
      have hflag : t.find.cover.now.flag = t.now.flag := hs.piece.flag
      have hblocks : ∀ q ≤ (t.find.cover.check d).now.getEnd, ∀ s ∈ t.find.sacks, q < s.1 :=
        fun q hq => hs.before_blocks q (hq.trans hcut'.end_le)
      dsimp only
      rw [if_pos hs.uncovered]
      refine ⟨htot.seq, htot.end_le, htot.before, htot.rest, htot.fack,
        ⟨hun.thorough.trans hs.unchanged.thorough, hun.ackedRtxId.trans hs.unchanged.ackedRtxId⟩,
        ⟨dropped, by rw [htot.sacks]; exact hdrop, hdropped⟩, fun _ hsome => ?_,
        fun h => absurd h hne, fun q hlo hhi => ?_, fun h => ?_⟩
      · obtain ⟨s, hmem⟩ := List.exists_mem_of_ne_nil _ hsome
        refine ⟨s, hmem, ?_⟩
        rw [htot.sacks] at hmem
        exact (hblocks _ le_rfl s hmem).trans (hprop s (hsub.subset hmem))
      · have hcovered : Uncovered t.sacks q := (hunc q hlo).mpr fun s hmem hin =>
          absurd (hblocks q hhi s hmem) (not_lt.mpr hin.1)
        rw [hv (by rw [hflag]; exact hne) q (by rw [hcut.seq]; exact hlo) hhi, hs.piece.falls_iff,
          falls_congr hcut.fack hs.unchanged.ackedRtxId]
        exact ⟨fun h => ⟨hcovered, h⟩, fun h => h.2⟩
      · have hend : t.find.cover.now.getEnd = t.now.seq :=
          (if_pos (hflag.trans h)).trans hcut.seq
        exact (hunc _ le_rfl).mpr fun s hmem hin =>
          absurd (hs.before_blocks _ hend.ge s hmem) (not_lt.mpr hin.1)
    · obtain ⟨s, hmem, hblock⟩ := hc.block
      have hnot : ∀ q, t.now.seq ≤ q → q ≤ t.find.cover.now.getEnd → ¬ Uncovered t.sacks q :=
        fun q hlo hhi h => h s (hsub.subset hmem) (hblock q hlo hhi)
      dsimp only
      rw [if_neg (by rw [hc.uncovered]; simp)]
      by_cases hret : t.now.flag = .retransmitted
      · exact .inr ⟨hc.thorough hret, hret, hnot _ le_rfl hc.start⟩
      · obtain ⟨ht, ha⟩ := hc.unchanged hret
        refine .inl ⟨hcut.seq, hcut.end_le, hcut.before, hcut.rest, hcut.fack, ⟨ht, ha⟩,
          ⟨dropped, by rw [hcut.sacks]; exact hdrop, hdropped⟩, fun _ _ => ⟨s, ?_, ?_⟩,
          fun h => absurd h hne, fun q hlo hhi => ?_, fun h => absurd h hret⟩
        · rw [hcut.sacks]
          exact hmem
        · exact (hblock _ hc.start le_rfl).2
        · exact iff_of_false (by simp [hc.flag]) fun h => hnot q hlo hhi h.1
  · left
    have hf := not_not.mp hne
    rw [if_neg hne]
    refine ⟨rfl, le_rfl, rfl, fun _ => .inl, rfl, ⟨rfl, rfl⟩, ⟨[], rfl, by simp⟩,
      fun h => absurd hf h, fun _ => rfl, fun q _ _ => ?_, fun h => ?_⟩
    · simp [hf, Falls]
    · rw [hf] at h
      exact absurd h (by simp)

/-- A pass keeps what it has learned. -/
theorem visit_thorough (d : ℤ) (h : t.thorough = true) : (t.visit d).thorough = true := by
  have hsack : ∀ u : Traversal, u.thorough = true → u.sack.thorough = true := fun u hu => by
    unfold sack
    cases u.now.flag <;> first | exact hu | rfl
  have hcheck : ∀ u : Traversal, u.thorough = true → (u.check d).thorough = true := fun u hu => by
    rw [(check_cut d).2.1.thorough, hu]
  have hcover : t.find.cover.thorough = true := by
    unfold cover
    split
    · exact h
    · split_ifs
      · exact h
      · exact hsack _ h
      · exact hsack _ h
      · exact h
  have hprocess : (t.process d).thorough = true := by
    unfold process
    dsimp only
    split_ifs
    · exact hcheck _ hcover
    · exact hcover
    · exact h
  have hmerge : (t.process d).mergePrev.thorough = true := by
    unfold mergePrev
    split
    · exact hprocess
    · split_ifs
      · exact hprocess
      · exact hprocess
  unfold visit extend
  split_ifs
  · exact hmerge
  · exact hmerge

/-- Some lost node has been visited. -/
def Found (t : Traversal) : Prop := ∃ m ∈ t.now :: t.before, m.flag = .lost

theorem mergePrev_same :
    ∃ c : Cursor, t.mergePrev = { t with toCursor := c } ∧ c.rest = t.rest ∧ c.fack = t.fack ∧
      c.ackedRtxId = t.ackedRtxId ∧
      ((∃ m ∈ c.now :: c.before, m.flag = .lost) ↔ t.Found) := by
  unfold mergePrev
  split
  · exact ⟨t.toCursor, rfl, rfl, rfl, rfl, Iff.rfl⟩
  · next prev before hb =>
    split_ifs with hm
    · refine ⟨t.toCursor.merge prev before, rfl, rfl, rfl, rfl, ?_⟩
      have hflag : (prev.merge t.now).flag = prev.flag := rfl
      unfold Found
      rw [hb]
      change (∃ m ∈ prev.merge t.now :: before, m.flag = _) ↔ _
      simp only [List.exists_mem_cons_iff, hflag, hm.2]
      tauto
    · exact ⟨t.toCursor, rfl, rfl, rfl, rfl, Iff.rfl⟩

/-- A board up to `fack_` is not extended. -/
theorem extend_of_lt (h : t.Sound a b) (hb : t.fack < b) : t.extend = t := by
  unfold extend
  rw [if_neg]
  rintro ⟨hrest, hend⟩
  obtain ⟨-, -, hpost⟩ := tiles_middle.mp h.tiles
  rw [hrest] at hpost
  have := tiles_nil.mp hpost
  omega

end Traversal

/-- A pass that learns nothing new leaves a packet lost when it visits it. -/
def FindsLost (f : ScoreBoard1Fields) (d : ℤ) (ns : List ScoreBoardNode1) (sacks : List (ℤ × ℤ))
    (q : ℤ) : Prop :=
  Uncovered sacks q ∧ ∃ n ∈ ns, n.Inside q ∧ n.Falls f d q

/-- A packet behind all blocks that is not SACKed. -/
structure Beyond (ns : List ScoreBoardNode1) (sacks : List (ℤ × ℤ)) (q : ℤ) : Prop where
  node : ∃ n ∈ ns, n.flag ≠ .sacked ∧ n.Inside q
  blocks : ∀ s ∈ sacks, s.2 ≤ q

/-- Nothing has been learned yet, and the nodes from `now` on are as they were. -/
structure Quiet (f : ScoreBoard1Fields) (d a b : ℤ) (ns : List ScoreBoardNode1)
    (sacks : List (ℤ × ℤ)) (t : Traversal) : Prop where
  entered : t.Entered a b
  thorough : t.thorough = false
  fack : t.fack = f.fack
  ackedRtxId : t.ackedRtxId = f.ackedRtxId
  pieces : ∀ m ∈ t.now :: t.rest, ∃ n ∈ ns, PieceOf n m
  dropped : ∃ dropped, sacks = dropped ++ t.sacks ∧ ∀ s ∈ dropped, s.2 ≤ t.now.seq
  found : (∃ m ∈ t.before, m.flag = .lost) ↔ ∃ q < t.now.seq, a ≤ q ∧ FindsLost f d ns sacks q
  retransmitted : ∀ n ∈ ns, n.flag = .retransmitted → n.seq < t.now.seq → Uncovered sacks n.seq
  going : t.sacks ≠ [] → ∀ q, Beyond ns sacks q → t.now.seq ≤ q
  stopped : t.sacks = [] → ∃ n ∈ ns, ∃ e, Beyond ns sacks e ∧ (∀ q, Beyond ns sacks q → e ≤ q) ∧
    n.Inside e ∧ e < t.now.seq ∧ n.Inside (t.now.seq - 1)

/-- A retransmission that is SACKed makes the pass thorough. -/
def Learns (ns : List ScoreBoardNode1) (sacks : List (ℤ × ℤ)) : Prop :=
  ∃ n ∈ ns, n.flag = .retransmitted ∧ ¬ Uncovered sacks n.seq

namespace Quiet

variable {t : Traversal} {c : Cursor}

/-- A node that is visited is a part of a node of the board. -/
theorem inside (h : Quiet f d a b ns sacks t) (hns : Blocks a ns b) (hm : m ∈ t.now :: t.rest)
    (hq : m.Inside q) : ∃ n ∈ ns, PieceOf n m ∧ n.Inside q ∧ ∀ k ∈ ns, k.Inside q → k = n := by
  obtain ⟨n, hn, hp⟩ := h.pieces m hm
  obtain ⟨hlo, hhi⟩ := inside_iff.mp hq
  have hin : n.Inside q := inside_iff.mpr ⟨hp.le.trans hlo, hhi.trans hp.end_le⟩
  exact ⟨n, hn, hp, hin, fun k hk hkq => hns.inside_unique hk hn hkq hin⟩

theorem uncovered_iff (h : Quiet f d a b ns sacks t) (hq : t.now.seq ≤ q) :
    Uncovered sacks q ↔ Uncovered t.sacks q := by
  obtain ⟨dropped, rfl, hdropped⟩ := h.dropped
  refine ⟨fun hu s hs => hu s (List.mem_append_right _ hs), fun hu s hs => ?_⟩
  rcases List.mem_append.mp hs with hs | hs
  · have := hdropped s hs
    omega
  · exact hu s hs

/-- The verdict of a step is the one on each of its packets. -/
theorem findsLost_iff (h : Quiet f d a b ns sacks t) (hns : Blocks a ns b)
    {u : Traversal} (hj : t.Judged d u) (hlo : t.now.seq ≤ q) (hhi : q ≤ u.now.getEnd) :
    FindsLost f d ns sacks q ↔ u.now.flag = .lost := by
  obtain ⟨n, hn, hp, hin, huniq⟩ := h.inside hns List.mem_cons_self
    (inside_iff.mpr ⟨hlo, hhi.trans hj.end_le⟩)
  rw [hj.verdict q hlo hhi, ← h.uncovered_iff hlo, hp.falls_iff, falls_congr h.fack h.ackedRtxId]
  refine and_congr_right fun _ => ⟨?_, fun hf => ⟨n, hn, hin, hf⟩⟩
  rintro ⟨k, hk, hkq, hf⟩
  rwa [← huniq k hk hkq]

/-- The state behind a step that learns nothing new. -/
theorem next (h : Quiet f d a b ns sacks t) (hns : Blocks a ns b) (hsome : t.sacks ≠ [])
    {u : Traversal} (hj : t.Judged d u) (he : c.Entered a b)
    (hseq : c.now.seq = u.now.getEnd + 1) (hle : u.now.seq ≤ u.now.getEnd)
    (hfack : c.fack = u.fack) (hacked : c.ackedRtxId = u.ackedRtxId)
    (hrest : u.rest = c.now :: c.rest)
    (hfound : (∃ m ∈ c.before, m.flag = .lost) ↔ u.Found) :
    Quiet f d a b ns sacks { u with toCursor := c } := by
  have hstart := hj.seq
  have hhi := hj.end_le
  have hne : ∀ q, t.now.seq ≤ q → q ≤ u.now.getEnd → ∃ n ∈ ns, PieceOf n t.now ∧ n.Inside q ∧
      ∀ k ∈ ns, k.Inside q → k = n := fun q hlo hq =>
    h.inside hns List.mem_cons_self (inside_iff.mpr ⟨hlo, hq.trans hhi⟩)
  obtain ⟨first, hdrop, hfirst⟩ := h.dropped
  obtain ⟨second, hdrop', hsecond⟩ := hj.dropped
  have hsacks : sacks = (first ++ second) ++ u.sacks := by
    rw [hdrop, hdrop', List.append_assoc]
  have hdropped : ∀ s ∈ first ++ second, s.2 ≤ t.now.seq := fun s hs => by
    rcases List.mem_append.mp hs with hs | hs
    · exact hfirst s hs
    · exact hsecond s hs
  refine ⟨he, hj.unchanged.thorough.trans h.thorough, (hfack.trans hj.fack).trans h.fack,
    (hacked.trans hj.unchanged.ackedRtxId).trans h.ackedRtxId, fun m hm => ?_,
    ⟨first ++ second, hsacks, fun s hs => ?_⟩, ?_, fun n hn hr hlt => ?_, fun hu q hq => ?_,
    fun hu => ?_⟩
  · rw [← hrest] at hm
    rcases hj.rest m hm with hm | hm
    · exact h.pieces m (List.mem_cons_of_mem _ hm)
    · obtain ⟨n, hn, hp⟩ := h.pieces t.now List.mem_cons_self
      exact ⟨n, hn, hp.trans hm⟩
  · have := hdropped s hs
    change s.2 ≤ c.now.seq
    omega
  · have hone : u.now.flag = .lost ↔ ∃ q, t.now.seq ≤ q ∧ q ≤ u.now.getEnd ∧
        FindsLost f d ns sacks q :=
      ⟨fun hl => ⟨t.now.seq, le_rfl, hstart ▸ hle,
        (h.findsLost_iff hns hj le_rfl (hstart ▸ hle)).mpr hl⟩,
        fun ⟨q, hlo, hq, hf⟩ => (h.findsLost_iff hns hj hlo hq).mp hf⟩
    have hago : a ≤ t.now.seq := (tiles_middle.mp h.entered.sound.tiles).1.le
    refine hfound.trans ?_
    rw [Traversal.Found, List.exists_mem_cons_iff, hj.before, h.found, hone]
    change _ ↔ ∃ q < c.now.seq, _
    constructor
    · rintro (⟨q, hlo, hq, hf⟩ | ⟨q, hlt, hlo, hf⟩)
      · exact ⟨q, by omega, by omega, hf⟩
      · exact ⟨q, by omega, hlo, hf⟩
    · rintro ⟨q, hlt, hlo, hf⟩
      rcases lt_or_ge q t.now.seq with hq | hq
      · exact .inr ⟨q, hq, hlo, hf⟩
      · exact .inl ⟨q, hq, by omega, hf⟩
  · change n.seq < c.now.seq at hlt
    rcases lt_or_ge n.seq t.now.seq with hq | hq
    · exact h.retransmitted n hn hr hq
    · obtain ⟨k, -, hp, -, huniq⟩ := hne n.seq hq (by omega)
      have hend : n.getEnd = n.seq := if_pos hr
      obtain rfl := huniq n hn (inside_iff.mpr ⟨le_rfl, hend.ge⟩)
      have hat : t.now.seq = n.seq := le_antisymm hq hp.le
      rw [← hat]
      exact (h.uncovered_iff le_rfl).mpr (hj.retransmitted (hp.flag.trans hr))
  · change c.now.seq ≤ q
    by_contra hlt
    by_cases hf : t.now.flag = .sacked
    · have hlo := h.going hsome q hq
      obtain ⟨n, hn, hnf, hin⟩ := hq.node
      obtain ⟨k, -, hp, -, huniq⟩ := hne q hlo (by omega)
      obtain rfl := huniq n hn hin
      exact hnf (hp.flag.symm.trans hf)
    · obtain ⟨s, hs, hlts⟩ := hj.passed hf hu
      have := hq.blocks s (hsacks ▸ List.mem_append_right _ hs)
      omega
  · have hf : t.now.flag ≠ .sacked := fun hf => hsome ((hj.stays hf).symm.trans hu)
    change u.sacks = [] at hu
    rw [hu, List.append_nil] at hsacks
    obtain ⟨n, hn, hp, hin, -⟩ := hne t.now.seq le_rfl (by omega)
    have hat : Beyond ns sacks t.now.seq :=
      ⟨⟨n, hn, fun h => hf (hp.flag.trans h), hin⟩, fun s hs => hdropped s (hsacks ▸ hs)⟩
    refine ⟨n, hn, t.now.seq, hat, h.going hsome, hin, ?_, ?_⟩
    · change t.now.seq < c.now.seq
      omega
    · change n.Inside (c.now.seq - 1)
      rw [hseq, add_sub_cancel_right]
      exact inside_iff.mpr ⟨hp.le.trans (by omega), hhi.trans hp.end_le⟩

/-- A step either learns something or leaves a cursor behind the part of the node that it has
visited. -/
theorem visit (h : Quiet f d a b ns sacks t) (hb : f.fack < b)
    (hsort : sacks.Pairwise fun s s' => s.1 ≤ s'.1) (hprop : ∀ s ∈ sacks, s.1 < s.2) :
    (t.visit d).thorough = true ∧ Learns ns sacks ∨
      ∃ u c, t.Judged d u ∧ t.visit d = { u with toCursor := c } ∧ c.Visited a b ∧
        c.rest = u.rest ∧ c.fack = u.fack ∧ c.ackedRtxId = u.ackedRtxId ∧
        c.now.getEnd = u.now.getEnd ∧ u.now.seq ≤ u.now.getEnd ∧
        ((∃ m ∈ c.now :: c.before, m.flag = .lost) ↔ u.Found) := by
  obtain ⟨first, hdrop, -⟩ := h.dropped
  have hsub : t.sacks.Sublist sacks := hdrop ▸ List.sublist_append_right _ _
  obtain ⟨hp, hsame⟩ := Traversal.process_visited d h.entered
  obtain ⟨hm, hend, hfack⟩ := Traversal.mergePrev_visited hp
  obtain ⟨c, hc, hrest, hcf, hca, hfound⟩ := Traversal.mergePrev_same (t := t.process d)
  have hvisit : t.visit d = { t.process d with toCursor := c } := by
    have hlt : (t.process d).mergePrev.fack < b := by
      rw [hfack, hsame.fack, h.fack]
      exact hb
    rw [Traversal.visit, Traversal.extend_of_lt hm.sound hlt, hc]
  rcases Traversal.process_judged d h.entered.le (hsort.sublist hsub)
    (fun s hs => hprop s (hsub.subset hs)) with hj | ⟨ht, hret, hnot⟩
  · rw [hc] at hm hend
    exact .inr ⟨t.process d, c, hj, hvisit, hm, hrest, hcf, hca, hend,
      (tiles_middle.mp hp.sound.tiles).2.1, hfound⟩
  · left
    refine ⟨by rw [hvisit]; exact ht, ?_⟩
    obtain ⟨n, hn, hpiece⟩ := h.pieces t.now List.mem_cons_self
    have hflag : n.flag = .retransmitted := hpiece.flag.symm.trans hret
    have hat : t.now.seq = n.seq := by
      have hnend : n.getEnd = n.seq := if_pos hflag
      have := h.entered.le
      have := hpiece.le
      have := hpiece.end_le
      omega
    exact ⟨n, hn, hflag, fun hu => hnot ((h.uncovered_iff le_rfl).mp (hat ▸ hu))⟩

/-- What holds throughout a pass that begins without having learned anything. -/
def OrLearned (f : ScoreBoard1Fields) (d a b : ℤ) (ns : List ScoreBoardNode1)
    (sacks : List (ℤ × ℤ)) (t : Traversal) : Prop :=
  t.thorough = true ∧ Learns ns sacks ∨ Quiet f d a b ns sacks t

theorem OrLearned.step (hns : Blocks a ns b) (hb : f.fack < b)
    (hsort : sacks.Pairwise fun s s' => s.1 ≤ s'.1) (hprop : ∀ s ∈ sacks, s.1 < s.2)
    (h : OrLearned f d a b ns sacks t) (hgo : t.sacks ≠ [] ∨ t.thorough = true)
    (hn : (t.visit d).next = some c) :
    OrLearned f d a b ns sacks { t.visit d with toCursor := c } := by
  rcases h with ⟨ht, hl⟩ | h
  · exact .inl ⟨Traversal.visit_thorough d ht, hl⟩
  · have hsome : t.sacks ≠ [] := hgo.resolve_right (by simp [h.thorough])
    rcases h.visit hb hsort hprop with hl | ⟨u, c', hj, he, hv, hr, hf, ha, hend, hle, hfound⟩
    · exact .inl hl
    · right
      rw [he] at hn ⊢
      obtain ⟨hent, hseq, hfack⟩ := hv.next hn
      obtain ⟨hbefore, hrest⟩ := Cursor.next_eq hn
      have hacked : c.ackedRtxId = c'.ackedRtxId := by
        rw [Cursor.next] at hn
        cases hr : c'.rest with
        | nil => rw [hr] at hn; exact absurd hn (by simp)
        | cons n rest => rw [hr] at hn; obtain rfl := Option.some.inj hn; rfl
      have hq : Quiet f d a b ns sacks { u with toCursor := c } :=
        h.next hns hsome hj hent (hseq.trans (by rw [hend])) hle (hfack.trans hf)
          (hacked.trans ha) (hr.symm.trans hrest) (by rw [hbefore]; exact hfound)
      exact hq

/-- Nothing has been visited yet. -/
theorem start {head : ScoreBoardNode1} {rest : List ScoreBoardNode1} {flag : AckFlags}
    (h : Counted f a (head :: rest) b) (hs : sacks ≠ []) :
    Quiet f d a b (head :: rest) sacks
      ⟨⟨{ f with nxtToRetrx := none }, [], head, rest⟩, sacks, false, flag⟩ where
  entered := ⟨⟨h.tiles, h.sackOut, h.fackOut, h.addressed⟩, rfl⟩
  thorough := rfl
  fack := rfl
  ackedRtxId := rfl
  pieces m hm := ⟨m, hm, .refl⟩
  dropped := ⟨[], rfl, by simp⟩
  found := by
    refine iff_of_false (by simp) ?_
    rintro ⟨q, hlt, hle, -⟩
    exact absurd (hle.trans_lt hlt) (by rw [← h.tiles.1]; exact lt_irrefl _)
  retransmitted n hn _ hlt := by
    have := (h.tiles.bounds hn).1
    have := h.tiles.1
    dsimp only at hlt
    omega
  going _ q hq := by
    obtain ⟨n, hn, -, hin⟩ := hq.node
    have := (h.tiles.bounds hn).1
    have := (inside_iff.mp hin).1
    have := h.tiles.1
    dsimp only
    omega
  stopped h := absurd h hs

end Quiet

/-- Some packet stays lost, and nothing that is found lost lies before the place where a pass that
learns nothing stops. -/
def Overlooked (f : ScoreBoard1Fields) (d : ℤ) (ns : List ScoreBoardNode1)
    (sacks : List (ℤ × ℤ)) : Prop :=
  ¬ Learns ns sacks ∧ ∃ e, Beyond ns sacks e ∧ (∀ q ≤ e, ¬ FindsLost f d ns sacks q) ∧
    ∃ q > e, LiesLost ns q

theorem ScoreBoardNode1.Falls.mono {e : ℤ} (h : n.Falls f d q) (he : e ≤ q) : n.Falls f d e := by
  unfold Falls at h ⊢
  cases hf : n.flag with
  | inflight =>
    rw [hf] at h
    exact he.trans h
  | sacked => rw [hf] at h; exact h
  | lost => trivial
  | retransmitted => rw [hf] at h; exact h

theorem FindsLost.of_beyond {e : ℤ} (h : FindsLost f d ns sacks q) (hns : Blocks a ns b)
    (hn : n ∈ ns) (hq : n.Inside q) (he : n.Inside e) (hle : e ≤ q)
    (hb : ∀ s ∈ sacks, s.2 ≤ e) : FindsLost f d ns sacks e := by
  obtain ⟨-, k, hk, hkq, hf⟩ := h
  obtain rfl := hns.inside_unique hk hn hkq hq
  refine ⟨fun s hs hin => ?_, k, hk, he, hf.mono hle⟩
  have := hb s hs
  omega

namespace Quiet

variable {t u : Traversal}

/-- A pass that visits the last node has not stopped before a lost packet. -/
theorem not_overlooked (h : Quiet f d a b ns sacks t) (hns : Blocks a ns b) (hsome : t.sacks ≠ [])
    (hlast : b ≤ t.now.getEnd + 1) : ¬ Overlooked f d ns sacks := by
  rintro ⟨-, e, he, hnone, q, hq, k, hk, hkl, hkq⟩
  have hlo := h.going hsome e he
  have hqb : q ≤ t.now.getEnd := by
    have := (hns.bounds hk).2.2
    have := (inside_iff.mp hkq).2
    omega
  obtain ⟨m, -, hp, -, hm⟩ := h.inside hns List.mem_cons_self (inside_iff.mpr ⟨by omega, hqb⟩)
  obtain ⟨n, hn, hp', hin, -⟩ := h.inside hns List.mem_cons_self
    (inside_iff.mpr ⟨hlo, hq.le.trans hqb⟩)
  have hl : n.flag = .lost := by
    rw [← hp'.flag, hp.flag, ← hm k hk hkq]
    exact hkl
  refine hnone e le_rfl ⟨fun s hs hin => ?_, n, hn, hin, ?_⟩
  · have := he.blocks s hs
    omega
  · unfold Falls
    rw [hl]
    trivial

/-- A pass that stops has overlooked what is lost behind it, unless it has found a lost packet. -/
theorem overlooked_iff (h : Quiet f d a b ns sacks t) (hns : Blocks a ns b) (hs : t.sacks = []) :
    Overlooked f d ns sacks ↔
      (∀ m ∈ t.before, m.flag ≠ .lost) ∧ ∃ m ∈ t.now :: t.rest, m.flag = .lost := by
  obtain ⟨n, hn, e, he, hmin, hin, hlt, hlast⟩ := h.stopped hs
  have hfound : ∀ {e' q}, Beyond ns sacks e' → (∀ q ≤ e', ¬ FindsLost f d ns sacks q) →
      FindsLost f d ns sacks q → t.now.seq ≤ q := fun {e' q} he' hnone hf => by
    by_contra hq
    have hle := hmin e' he'
    have heq : e ≤ q := hle.trans (not_lt.mp fun hlt => hnone q hlt.le hf)
    refine hnone e hle (hf.of_beyond hns hn (inside_iff.mpr ⟨?_, ?_⟩) hin heq he.blocks)
    · exact (inside_iff.mp hin).1.trans heq
    · have := (inside_iff.mp hlast).2
      omega
  constructor
  · rintro ⟨-, e', he', hnone, q, hq, k, hk, hkl, hkq⟩
    refine ⟨fun m hm hl => ?_, ?_⟩
    · obtain ⟨q, hlt, -, hf⟩ := h.found.mp ⟨m, hm, hl⟩
      have := hfound he' hnone hf
      omega
    · have hcovered : FindsLost f d ns sacks q := by
        refine ⟨fun s hs hin => ?_, k, hk, hkq, by unfold Falls; rw [hkl]; trivial⟩
        have := he'.blocks s hs
        omega
      have hqt := hfound he' hnone hcovered
      obtain ⟨-, hnow, hpost⟩ := tiles_middle.mp h.entered.sound.tiles
      have htail : Blocks t.now.seq (t.now :: t.rest) b := ⟨rfl, hnow, hpost⟩
      obtain ⟨m, hm, hmq⟩ := htail.exists_mem hqt (by
        have := (hns.bounds hk).2.2
        have := (inside_iff.mp hkq).2
        omega)
      obtain ⟨_, -, hp, -, huniq⟩ := h.inside hns hm (inside_iff.mpr hmq)
      refine ⟨m, hm, hp.flag.trans ?_⟩
      rw [← huniq k hk hkq]
      exact hkl
  · rintro ⟨hbefore, m, hm, hl⟩
    obtain ⟨dropped, hdrop, hdropped⟩ := h.dropped
    rw [hs, List.append_nil] at hdrop
    refine ⟨?_, e, he, fun q hq hf => ?_, ?_⟩
    · rintro ⟨k, hk, hkr, hcov⟩
      refine hcov ?_
      rcases lt_or_ge k.seq t.now.seq with hlt' | hge
      · exact h.retransmitted k hk hkr hlt'
      · intro s hsm hin'
        have := hdropped s (hdrop ▸ hsm)
        omega
    · obtain ⟨-, k, hk, hkq, -⟩ := id hf
      have hago := (hns.bounds hk).1
      have hkq := (inside_iff.mp hkq).1
      obtain ⟨m, hm, hl⟩ := h.found.mpr ⟨q, by omega, by omega, hf⟩
      exact hbefore m hm hl
    · obtain ⟨-, hnow, hpost⟩ := tiles_middle.mp h.entered.sound.tiles
      have htail : Blocks t.now.seq (t.now :: t.rest) b := ⟨rfl, hnow, hpost⟩
      obtain ⟨hseq, hmle, -⟩ := htail.bounds hm
      obtain ⟨k, hk, hp, hkq, -⟩ := h.inside hns hm (inside_iff.mpr ⟨le_rfl, hmle⟩)
      exact ⟨m.seq, by omega, k, hk, hp.flag.symm.trans hl, hkq⟩

end Quiet

theorem Traversal.visit_rest {t : Traversal} (h : (t.visit d).rest = []) :
    (t.visit d).fack ≤ (t.visit d).now.getEnd := by
  unfold Traversal.visit Traversal.extend at h ⊢
  split_ifs at h ⊢ with hc
  · exact absurd h (List.cons_ne_nil _ _)
  · exact not_lt.mp fun hlt => hc ⟨h, hlt⟩

theorem FirstLost.append {ms : List ScoreBoardNode1} (h : FirstLost f ns)
    (hor : (∃ m ∈ ns, m.flag = .lost) ∨ ∀ m ∈ ms, m.flag ≠ .lost) : FirstLost f (ns ++ ms) := by
  rw [FirstLost, List.find?_append, h]
  rcases hor with ⟨m, hm, hl⟩ | hnone
  · obtain ⟨k, hk⟩ := Option.isSome_iff_exists.mp
      (List.find?_isSome.mpr ⟨m, hm, decide_eq_true hl⟩ :
        (ns.find? fun n => n.flag = .lost).isSome)
    rw [hk]
    rfl
  · have hms : (ms.find? fun n => n.flag = .lost) = none :=
      List.find?_eq_none.mpr fun m hm => by simpa using hnone m hm
    rw [hms, Option.or_none]

/-- A board behind a pass reaches behind `fack_`. -/
structure Traversed (f : ScoreBoard1Fields) (a : ℤ) (sb : ScoreBoard1) : Prop where
  ne_nil : sb.nodes ≠ []
  fack : sb.fack = f.fack
  counted : ∃ b, Counted sb.toScoreBoard1Fields a sb.nodes b ∧ sb.fack < b

namespace ScoreBoard1

variable {head : ScoreBoardNode1} {rest : List ScoreBoardNode1} {t : Traversal} {flag : AckFlags}

theorem traversed_of_visit {t₀ : Traversal} (hv : (t₀.visit d).Visited a b)
    (hrest : (t₀.visit d).rest = []) (hfack : (t₀.visit d).fack = f.fack) :
    Traversed f a (t₀.visit d).toBoard ∧
      FirstLost (t₀.visit d).toBoard.toScoreBoard1Fields (t₀.visit d).toBoard.nodes := by
  obtain ⟨-, -, hpost⟩ := tiles_middle.mp hv.sound.tiles
  rw [hrest] at hpost
  have hlast := tiles_nil.mp hpost
  have hle := Traversal.visit_rest hrest
  have hnodes : (t₀.visit d).toBoard.nodes =
      (t₀.visit d).before.reverse ++ [(t₀.visit d).now] := by
    rw [Cursor.toBoard, Cursor.nodes, hrest]
  refine ⟨⟨by rw [hnodes]; simp, hfack, b, hv.sound, ?_⟩, ?_⟩
  · change (t₀.visit d).fack < b
    omega
  · rw [hnodes]
    exact hv.firstLost

/-- A pass that has learned something new visits all nodes. -/
theorem traverse_thorough (d : ℤ) (h : Counted f a (head :: rest) b) :
    ∃ r, traverse d f head rest sacks true flag = .ok r ∧ Traversed f a r.1 ∧
      FirstLost r.1.toScoreBoard1Fields r.1.nodes := by
  obtain ⟨t, b', hok, -, hfack, hend⟩ := traverse_rule (P := fun t => t.thorough = true) d
    (fun t _ ht _ _ => Traversal.visit_thorough d ht) h rfl
  rcases hend with ⟨hv, hrest, t₀, -, -, rfl⟩ | ⟨-, ht, -, hf⟩
  · exact ⟨_, hok, traversed_of_visit hv hrest hfack⟩
  · exact absurd (ht.symm.trans hf) (by simp)

/-- A pass that begins without having learned anything finds the first lost node, or no packet is
recommended although some are lost. -/
theorem traverse_quiet (d : ℤ) (flag : AckFlags) (h : Counted f a (head :: rest) b)
    (hb : f.fack < b) (hsort : sacks.Pairwise fun s s' => s.1 ≤ s'.1)
    (hprop : ∀ s ∈ sacks, s.1 < s.2) (hs : sacks ≠ []) :
    ∃ r, traverse d f head rest sacks false flag = .ok r ∧ Traversed f a r.1 ∧
      (¬ Overlooked f d (head :: rest) sacks → FirstLost r.1.toScoreBoard1Fields r.1.nodes) ∧
      (Overlooked f d (head :: rest) sacks →
        r.1.nxtToRetrx = none ∧ ∃ q, LiesLost r.1.nodes q) := by
  obtain ⟨t, b', hok, -, hfack, hend⟩ := traverse_rule
    (P := Quiet.OrLearned f d a b (head :: rest) sacks) d
    (fun t c hP hgo hn => hP.step h.tiles hb hsort hprop hgo hn) h (.inr (.start h hs))
  refine ⟨_, hok, ?_⟩
  rcases hend with ⟨hv, hrest, t₀, hP, hgo, rfl⟩ | ⟨-, ⟨ht, -⟩ | hq, hnil, hf⟩
  · obtain ⟨htr, hfirst⟩ := traversed_of_visit hv hrest hfack
    suffices hnot : ¬ Overlooked f d (head :: rest) sacks from
      ⟨htr, fun _ => hfirst, fun ho => absurd ho hnot⟩
    rcases hP with ⟨-, hl⟩ | hq
    · exact fun ho => ho.1 hl
    · have hsome := hgo.resolve_right (by simp [hq.thorough])
      rcases hq.visit hb hsort hprop with ⟨-, hl⟩ | ⟨u, c, hj, he, hcv, -, -, -, hcend, -⟩
      · exact fun ho => ho.1 hl
      · refine hq.not_overlooked h.tiles hsome ?_
        rw [he] at hrest
        change c.rest = [] at hrest
        obtain ⟨-, -, hpost⟩ := tiles_middle.mp hcv.sound.tiles
        rw [hrest] at hpost
        have := tiles_nil.mp hpost
        have := hj.end_le
        omega
  · exact absurd (ht.symm.trans hf) (by simp)
  · have hlt : t.fack < b := hfack ▸ hb
    refine ⟨⟨by simp [Cursor.toBoard, Cursor.nodes], hfack, b, hq.entered.sound, hlt⟩, ?_⟩
    rw [hq.overlooked_iff h.tiles hnil]
    have hfirst := hq.entered.firstLost
    refine ⟨fun hnot => hfirst.append ?_, ?_⟩
    · by_cases hbefore : ∃ m ∈ t.before, m.flag = .lost
      · obtain ⟨m, hm, hl⟩ := hbefore
        exact .inl ⟨m, List.mem_reverse.mpr hm, hl⟩
      · push Not at hbefore
        exact .inr fun m hm hl => hnot ⟨hbefore, m, hm, hl⟩
    · rintro ⟨hbefore, m, hm, hl⟩
      have hnone : (t.before.reverse.find? fun n => n.flag = .lost) = none :=
        List.find?_eq_none.mpr fun k hk => by simpa using hbefore k (List.mem_reverse.mp hk)
      have hmem : m ∈ t.nodes := List.mem_append_right _ hm
      refine ⟨?_, m.seq, m, hmem, hl, inside_iff.mpr ⟨le_rfl, ?_⟩⟩
      · rw [FirstLost, hnone] at hfirst
        exact hfirst
      · exact (hq.entered.sound.tiles.bounds hmem).2.1

end ScoreBoard1

end Ns2XPass
