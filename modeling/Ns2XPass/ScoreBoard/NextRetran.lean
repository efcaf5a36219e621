import Ns2XPass.ScoreBoard.Pass

/-! # The next retransmission of TCP-Linux

The pointer to the next retransmission is cleared at the start of a pass, and a
pass that learns nothing new stops behind the last block. Lost packets are
overlooked exactly when the pass stops before the first one of them.
-/

namespace Ns2XPass

open ScoreBoardNode1

variable {sb : ScoreBoard1} {f : ScoreBoard1Fields} {n m : ScoreBoardNode1}
  {ns pre post : List ScoreBoardNode1} {sacks : List (ℤ × ℤ)} {a b lastAck q d : ℤ}

/-- The recommended number is the least one in a lost block, and `-1` if there is none. -/
structure Recommends (ns : List ScoreBoardNode1) (q : ℤ) : Prop where
  lowest : ∀ r, LiesLost ns r → LiesLost ns q ∧ q ≤ r
  none : q = -1 ↔ ∀ r, ¬ LiesLost ns r

/-- No lost node lies before the one that the pointer points to, and without one none is lost. -/
structure Complete (f : ScoreBoard1Fields) (ns : List ScoreBoardNode1) : Prop where
  null : f.nxtToRetrx = none → ∀ n ∈ ns, n.flag ≠ .lost
  ahead : ∀ addr, f.nxtToRetrx = some addr →
    ∃ pre n post, ns = pre ++ n :: post ∧ n.addr = addr ∧ ∀ m ∈ pre, m.flag ≠ .lost

theorem FirstLost.complete (h : FirstLost f ns) : Complete f ns where
  null hp n hn hl := by
    rw [h, Option.map_eq_none_iff, List.find?_eq_none] at hp
    exact hp n hn (decide_eq_true hl)
  ahead addr hp := by
    rw [h] at hp
    obtain ⟨n, hn, rfl⟩ := Option.map_eq_some_iff.mp hp
    obtain ⟨-, pre, post, rfl, hpre⟩ := List.find?_eq_some_iff_append.mp hn
    exact ⟨pre, n, post, rfl, rfl, fun m hm hl => by simpa [hl] using hpre m hm⟩

namespace ScoreBoard1

/-- The next retransmission is the least packet in a lost block. -/
def Retransmits (sb : ScoreBoard1) : Prop :=
  ∃ sb' q, sb.getNextRetran = .ok (sb', q) ∧ Recommends sb.nodes q

/-- The next lost node is found behind the pointer. -/
theorem getNextRetran_complete (h : Addressed sb.fresh sb.nodes)
    (hc : Complete sb.toScoreBoard1Fields sb.nodes) :
    ∃ addr q, sb.getNextRetran = .ok ({ sb with nxtToRetrx := addr }, q) ∧
      (q = -1 ∧ addr = none ∧ (∀ n ∈ sb.nodes, n.flag ≠ .lost) ∨
        ∃ pre n post, sb.nodes = pre ++ n :: post ∧ addr = some n.addr ∧ q = n.seq ∧
          n.flag = .lost ∧ ∀ m ∈ pre, m.flag ≠ .lost) := by
  rw [getNextRetran]
  cases hp : sb.nxtToRetrx with
  | none =>
    have hsb : ({ sb with nxtToRetrx := none } : ScoreBoard1) = sb := by rw [← hp]
    exact ⟨none, -1, by rw [hsb], .inl ⟨rfl, rfl, hc.null hp⟩⟩
  | some addr =>
    obtain ⟨pre, n, post, hns, rfl, hpre⟩ := hc.ahead addr hp
    obtain ⟨hfrom, -⟩ := nodesFrom_of_eq h hns
    dsimp only
    rw [hfrom, if_neg (List.cons_ne_nil n post)]
    cases hf : (n :: post).find? fun n => n.flag = .lost with
    | none =>
      refine ⟨none, -1, rfl, .inl ⟨rfl, rfl, fun m hm hl => ?_⟩⟩
      rw [hns, List.mem_append] at hm
      rcases hm with hm | hm
      · exact hpre m hm hl
      · exact List.find?_eq_none.mp hf m hm (decide_eq_true hl)
    | some m =>
      obtain ⟨hl, pre', post', hpost, hpre'⟩ := List.find?_eq_some_iff_append.mp hf
      refine ⟨some m.addr, m.seq, rfl, .inr ⟨pre ++ pre', m, post', ?_, rfl, rfl,
        of_decide_eq_true hl, fun k hk hkl => ?_⟩⟩
      · rw [hns, hpost, List.append_assoc]
      · rcases List.mem_append.mp hk with hk | hk
        · exact hpre k hk hkl
        · have := hpre' k hk
          simp [hkl] at this

theorem retransmits_of_complete (h : sb.Good lastAck) (hack : -1 ≤ lastAck)
    (hc : Complete sb.toScoreBoard1Fields sb.nodes) : sb.Retransmits := by
  obtain ⟨⟨a, b, hlt, hcount⟩, -⟩ := h
  obtain ⟨addr, q, hok, hq⟩ := getNextRetran_complete hcount.addressed hc
  refine ⟨_, q, hok, ?_⟩
  rcases hq with ⟨rfl, -, hnone⟩ | ⟨pre, n, post, hnodes, -, rfl, hl, hpre⟩
  · exact ⟨fun r ⟨n, hmem, hl, _⟩ => absurd hl (hnone n hmem),
      iff_of_true rfl fun r ⟨n, hmem, hl, _⟩ => hnone n hmem hl⟩
  · have htiles := hcount.tiles
    rw [hnodes] at htiles
    obtain ⟨hbefore, hle, hbehind⟩ := tiles_middle.mp htiles
    have hlies : LiesLost sb.nodes n.seq :=
      ⟨n, by simp [hnodes], hl, inside_iff.mpr ⟨le_rfl, hle⟩⟩
    refine ⟨fun r hr => ⟨hlies, ?_⟩, iff_of_false ?_ fun h => h _ hlies⟩
    · obtain ⟨k, hk, hkl, hin⟩ := hr
      rw [hnodes, List.mem_append, List.mem_cons] at hk
      have hkr := (inside_iff.mp hin).1
      rcases hk with hk | rfl | hk
      · exact absurd hkl (hpre k hk)
      · exact hkr
      · have := (hbehind.bounds hk).1
        omega
    · have := hbefore.le
      omega

theorem not_retransmits (hp : sb.nxtToRetrx = none) (hl : ∃ r, LiesLost sb.nodes r) :
    ¬ sb.Retransmits := by
  rintro ⟨sb', q, hq, hr⟩
  rw [getNextRetran, hp] at hq
  obtain rfl : -1 = q := (Prod.mk.inj (Except.ok.inj hq)).2
  obtain ⟨r, hl⟩ := hl
  exact hr.none.mp rfl r hl

/-- The blocks that are no D-SACKs. -/
theorem mem_filterSacks {blocks : List (ℤ × ℤ)} {s : ℤ × ℤ} :
    s ∈ filterSacks lastAck blocks ↔ s ∈ blocks ∧ lastAck ≤ s.1 := by
  have hfold : ∀ xs acc : List (ℤ × ℤ), s ∈ xs.foldl
      (fun sacks s => sacks.orderedInsert (fun s t => t.1 ≤ s.1) s) acc ↔ s ∈ acc ∨ s ∈ xs := by
    intro xs
    induction xs with
    | nil => simp
    | cons x xs ih =>
      intro acc
      rw [List.foldl_cons, ih, List.mem_orderedInsert, List.mem_cons]
      tauto
  rw [filterSacks, hfold, List.mem_filter, decide_eq_true_iff]
  simp

/-- The blocks are visited in the order of their left edges. -/
theorem filterSacks_sorted (lastAck : ℤ) (blocks : List (ℤ × ℤ)) :
    (filterSacks lastAck blocks).reverse.Pairwise fun s t => s.1 ≤ t.1 := by
  have : Std.Total fun s t : ℤ × ℤ => t.1 ≤ s.1 := ⟨fun s t => le_total t.1 s.1⟩
  have : IsTrans (ℤ × ℤ) fun s t => t.1 ≤ s.1 := ⟨fun _ _ _ h h' => h'.trans h⟩
  have hfold : ∀ xs acc : List (ℤ × ℤ), acc.Pairwise (fun s t => t.1 ≤ s.1) → (xs.foldl
      (fun sacks s => sacks.orderedInsert (fun s t => t.1 ≤ s.1) s) acc).Pairwise
        fun s t => t.1 ≤ s.1 := by
    intro xs
    induction xs with
    | nil => exact fun _ h => h
    | cons x xs ih => exact fun acc h => ih _ (h.orderedInsert x acc)
  exact List.pairwise_reverse.mpr (hfold _ [] .nil)

end ScoreBoard1

/-- Some retransmission that an ACK covers raises `acked_rtx_id_`. -/
def Raises (lastAck : ℤ) (f : ScoreBoard1Fields) (ns : List ScoreBoardNode1) : Prop :=
  ∃ n ∈ ns, n.flag = .retransmitted ∧ n.seq ≤ lastAck ∧ f.ackedRtxId < n.retran

/-- The packets above an ACK are left, in parts of their nodes. -/
structure Trims (lastAck : ℤ) (ns ms : List ScoreBoardNode1) : Prop where
  above : ∀ m ∈ ms, lastAck < m.seq
  pieces : ∀ m ∈ ms, ∃ n ∈ ns, PieceOf n m
  kept : ∀ n ∈ ns, ∀ q, lastAck < q → n.Inside q → ∃ m ∈ ms, PieceOf n m ∧ m.Inside q

namespace Trims

variable {ms : List ScoreBoardNode1}

theorem refl (h : ∀ n ∈ ns, lastAck < n.seq) : Trims lastAck ns ns :=
  ⟨h, fun m hm => ⟨m, hm, .refl⟩, fun n hn _ _ hq => ⟨n, hn, .refl, hq⟩⟩

theorem cons (h : Trims lastAck ns ms) (hn : n.getEnd ≤ lastAck) : Trims lastAck (n :: ns) ms where
  above := h.above
  pieces m hm := by
    obtain ⟨k, hk, hp⟩ := h.pieces m hm
    exact ⟨k, List.mem_cons_of_mem n hk, hp⟩
  kept k hk q hlt hq := by
    rcases List.mem_cons.mp hk with rfl | hk
    · have := (inside_iff.mp hq).2
      omega
    · exact h.kept k hk q hlt hq

/-- What a part has in common with its node holds of a packet before and behind. -/
theorem exists_iff (h : Trims lastAck ns ms) {R : ScoreBoardNode1 → Prop}
    (hR : ∀ n m, PieceOf n m → (R m ↔ R n)) :
    (∃ m ∈ ms, m.Inside q ∧ R m) ↔ lastAck < q ∧ ∃ n ∈ ns, n.Inside q ∧ R n := by
  constructor
  · rintro ⟨m, hm, hq, hr⟩
    obtain ⟨n, hn, hp⟩ := h.pieces m hm
    have := h.above m hm
    obtain ⟨hlo, hhi⟩ := inside_iff.mp hq
    exact ⟨by omega, n, hn, inside_iff.mpr ⟨hp.le.trans hlo, hhi.trans hp.end_le⟩,
      (hR n m hp).mp hr⟩
  · rintro ⟨hlt, n, hn, hq, hr⟩
    obtain ⟨m, hm, hp, hq⟩ := h.kept n hn q hlt hq
    exact ⟨m, hm, hq, (hR n m hp).mpr hr⟩

theorem liesLost_iff (h : Trims lastAck ns ms) :
    LiesLost ms q ↔ lastAck < q ∧ LiesLost ns q := by
  have := h.exists_iff (q := q) (R := fun n => n.flag = .lost) fun n m hp => by rw [hp.flag]
  simpa only [LiesLost, and_comm (a := _ = SkbFlag.lost)] using this

theorem findsLost_iff (h : Trims lastAck ns ms) :
    FindsLost f d ms sacks q ↔ lastAck < q ∧ FindsLost f d ns sacks q := by
  rw [FindsLost, FindsLost, h.exists_iff fun n m hp => hp.falls_iff]
  tauto

theorem beyond_iff (h : Trims lastAck ns ms) :
    Beyond ms sacks q ↔ lastAck < q ∧ Beyond ns sacks q := by
  have hnode := h.exists_iff (q := q) (R := fun n => n.flag ≠ .sacked)
    fun n m hp => by rw [hp.flag]
  simp only [and_comm (a := Inside _ _)] at hnode
  constructor
  · rintro ⟨hn, hb⟩
    obtain ⟨hlt, hn⟩ := hnode.mp hn
    exact ⟨hlt, hn, hb⟩
  · rintro ⟨hlt, hn, hb⟩
    exact ⟨hnode.mpr ⟨hlt, hn⟩, hb⟩

theorem learns_iff (h : Trims lastAck ns ms) (hns : Blocks a ns b) :
    Learns ms sacks ↔
      ∃ n ∈ ns, n.flag = .retransmitted ∧ lastAck < n.seq ∧ ¬ Uncovered sacks n.seq := by
  constructor
  · rintro ⟨m, hm, hr, hcov⟩
    obtain ⟨n, hn, hp⟩ := h.pieces m hm
    have hrn : n.flag = .retransmitted := hp.flag.symm.trans hr
    have hend : n.getEnd = n.seq := if_pos hrn
    have hend' : m.getEnd = m.seq := if_pos hr
    have heq : m.seq = n.seq := le_antisymm (by have := hp.end_le; omega) hp.le
    exact ⟨n, hn, hrn, heq ▸ h.above m hm, heq ▸ hcov⟩
  · rintro ⟨n, hn, hr, hlt, hcov⟩
    obtain ⟨m, hm, hp, hq⟩ := h.kept n hn n.seq hlt
      (inside_iff.mpr ⟨le_rfl, (hns.bounds hn).2.1⟩)
    have heq : m.seq = n.seq := le_antisymm (inside_iff.mp hq).1 hp.le
    exact ⟨m, hm, hp.flag.trans hr, heq ▸ hcov⟩

end Trims

theorem Complete.congr {g : ScoreBoard1Fields} (h : Complete f ns)
    (hn : g.nxtToRetrx = f.nxtToRetrx) : Complete g ns :=
  ⟨fun hp => h.null (hn ▸ hp), fun addr hp => h.ahead addr (hn ▸ hp)⟩

/-- What the queue cleaning does. -/
structure Cleaned (lastAck : ℤ) (f g : ScoreBoard1Fields) (ns ms : List ScoreBoardNode1)
    (changed changed' : Bool) : Prop where
  fack : g.fack = f.fack
  complete : Complete f ns → Complete g ms
  changed : changed' = true ↔ changed = true ∨ Raises lastAck f ns
  ackedRtxId : ¬ Raises lastAck f ns → g.ackedRtxId = f.ackedRtxId
  trims : Trims lastAck ns ms

namespace ScoreBoard1

variable {head : ScoreBoardNode1} {rest : List ScoreBoardNode1}

theorem forget_same {flag : SkbFlag} {k : ℤ} {g : ScoreBoard1Fields}
    (h : f.forget flag k = .ok g) :
    g.fack = f.fack ∧ g.nxtToRetrx = f.nxtToRetrx ∧ g.ackedRtxId = f.ackedRtxId := by
  unfold ScoreBoard1Fields.forget at h
  split at h
  · split_ifs at h
    obtain rfl := Except.ok.inj h
    exact ⟨rfl, rfl, rfl⟩
  · split_ifs at h
    obtain rfl := Except.ok.inj h
    exact ⟨rfl, rfl, rfl⟩
  · obtain rfl := Except.ok.inj h
    exact ⟨rfl, rfl, rfl⟩

/-- The pointer moves on with the head that it points to. -/
theorem Complete.deleteHead (h : Complete f (head :: rest)) :
    Complete (f.deleteHead head rest) rest := by
  have hp : (f.deleteHead head rest).nxtToRetrx =
      if f.nxtToRetrx = some head.addr then rest.head?.map (·.addr) else f.nxtToRetrx := rfl
  split_ifs at hp with hc
  · refine ⟨fun hnull n hn => ?_, fun addr ha => ?_⟩
    · rw [hp, Option.map_eq_none_iff, List.head?_eq_none_iff] at hnull
      rw [hnull] at hn
      exact absurd hn (by simp)
    · rw [hp] at ha
      obtain ⟨n, hn, rfl⟩ := Option.map_eq_some_iff.mp ha
      obtain ⟨post, rfl⟩ := List.head?_eq_some_iff.mp hn
      exact ⟨[], n, post, rfl, rfl, by simp⟩
  · refine ⟨fun hnull n hn => h.null (hp ▸ hnull) n (List.mem_cons_of_mem _ hn), fun addr ha => ?_⟩
    rw [hp] at ha
    obtain ⟨pre, n, post, he, rfl, hpre⟩ := h.ahead addr ha
    cases pre with
    | nil =>
      obtain ⟨rfl, -⟩ := List.cons.inj he
      exact absurd ha hc
    | cons m pre =>
      obtain ⟨-, rfl⟩ := List.cons.inj he
      exact ⟨pre, n, post, rfl, rfl, fun k hk => hpre k (List.mem_cons_of_mem m hk)⟩

/-- The pointer stays at a head of which a part is acked. -/
theorem Complete.trimHead (h : Complete f (head :: rest)) (s : ℤ) :
    Complete f ({ head with seq := s } :: rest) where
  null hp n hn := by
    rcases List.mem_cons.mp hn with rfl | hn
    · exact h.null hp head List.mem_cons_self
    · exact h.null hp n (List.mem_cons_of_mem head hn)
  ahead addr hp := by
    obtain ⟨pre, n, post, he, rfl, hpre⟩ := h.ahead addr hp
    cases pre with
    | nil =>
      obtain ⟨rfl, rfl⟩ := List.cons.inj he
      exact ⟨[], _, rest, rfl, rfl, by simp⟩
    | cons m pre =>
      obtain ⟨rfl, rfl⟩ := List.cons.inj he
      exact ⟨{ head with seq := s } :: pre, n, post, rfl, rfl,
        List.forall_mem_cons.mpr (List.forall_mem_cons.mp hpre)⟩

theorem raises_cons : Raises lastAck f (head :: rest) ↔
    head.flag = .retransmitted ∧ head.seq ≤ lastAck ∧ f.ackedRtxId < head.retran ∨
      Raises lastAck f rest := by
  rw [Raises, List.exists_mem_cons_iff, Raises]

/-- A retransmission that is acked may raise `acked_rtx_id_` in place of one behind it. -/
theorem raises_deleteHead (rest : List ScoreBoardNode1) (hle : head.seq ≤ lastAck) :
    head.flag = .retransmitted ∧ f.ackedRtxId < head.retran ∨
      Raises lastAck (f.deleteHead head rest) rest ↔ Raises lastAck f (head :: rest) := by
  rw [raises_cons]
  by_cases hr : head.flag = .retransmitted
  · have hacked : (f.deleteHead head rest).ackedRtxId = max f.ackedRtxId head.retran := if_pos hr
    by_cases hlt : f.ackedRtxId < head.retran
    · exact iff_of_true (.inl ⟨hr, hlt⟩) (.inl ⟨hr, hle, hlt⟩)
    · rw [Raises, Raises, hacked, max_eq_left (not_lt.mp hlt)]
      tauto
  · have hacked : (f.deleteHead head rest).ackedRtxId = f.ackedRtxId := if_neg hr
    rw [Raises, Raises, hacked]
    tauto

theorem cleanRtxQueue_cleaned {ns : List ScoreBoardNode1} {changed changed' : Bool}
    {flag flag' : AckFlags} (h : Blocks a ns b)
    (hok : cleanRtxQueue lastAck f ns changed flag = .ok (sb, changed', flag')) :
    Cleaned lastAck f sb.toScoreBoard1Fields ns sb.nodes changed changed' := by
  induction ns generalizing f a changed flag with
  | nil =>
    obtain ⟨rfl, rfl, -⟩ := Prod.mk.inj (Except.ok.inj hok)
    exact ⟨rfl, id, by simp [Raises], fun _ => rfl, .refl (by simp)⟩
  | cons head rest ih =>
    obtain ⟨hseq, hle, hrest⟩ := h
    rw [cleanRtxQueue, shouldClean] at hok
    by_cases habove : lastAck < head.seq
    · rw [if_pos habove] at hok
      obtain ⟨rfl, rfl, -⟩ := Prod.mk.inj (Except.ok.inj hok)
      have hall : ∀ n ∈ head :: rest, lastAck < n.seq :=
        List.forall_mem_cons.mpr ⟨habove, fun n hn => by have := (hrest.bounds hn).1; omega⟩
      have hnot : ¬ Raises lastAck f (head :: rest) := by
        rintro ⟨n, hn, -, hle, -⟩
        exact absurd hle (not_le.mpr (hall n hn))
      exact ⟨rfl, id, by simp [hnot], fun _ => rfl, .refl hall⟩
    · rw [if_neg habove] at hok
      by_cases hall : head.flag = .retransmitted ∨ head.nxt ≤ lastAck
      · have hend : head.getEnd ≤ lastAck := by
          rw [getEnd]
          split_ifs with hr
          · exact not_lt.mp habove
          · exact hall.resolve_left hr
        rw [if_pos hall] at hok
        dsimp only at hok
        rw [if_neg (by decide), if_pos (by decide)] at hok
        obtain ⟨g, hg, hok⟩ := bind_eq_ok.mp hok
        obtain ⟨hfack, hnxt, hacked⟩ := forget_same hg
        rw [if_pos (by decide)] at hok
        obtain ⟨hfack', hc, hch, ha, ht⟩ := ih hrest hok
        have hraise := raises_deleteHead (f := g) rest (not_lt.mp habove)
        have hsame : Raises lastAck g (head :: rest) ↔ Raises lastAck f (head :: rest) := by
          rw [Raises, Raises, hacked]
        refine ⟨hfack'.trans hfack, fun h => hc (Complete.deleteHead (h.congr hnxt)), ?_,
          fun hn => ?_, ht.cons hend⟩
        · rw [hch, ← hsame, ← hraise, Bool.or_eq_true, decide_eq_true_iff]
          exact or_assoc
        · rw [← hsame, ← hraise, not_or] at hn
          refine (ha hn.2).trans (Eq.trans ?_ hacked)
          change (if head.flag = .retransmitted then max g.ackedRtxId head.retran
            else g.ackedRtxId) = _
          split_ifs with hr
          · exact max_eq_left (not_lt.mp fun hlt => hn.1 ⟨hr, hlt⟩)
          · rfl
      · obtain ⟨hr, hnxt⟩ := not_or.mp hall
        have hend := getEnd_of_ne hr
        rw [if_neg hall] at hok
        dsimp only at hok
        rw [if_neg (by omega), if_neg (by omega)] at hok
        obtain ⟨g, hg, hok⟩ := bind_eq_ok.mp hok
        rw [if_neg (by omega)] at hok
        obtain ⟨rfl, rfl, -⟩ := Prod.mk.inj (Except.ok.inj hok)
        obtain ⟨hfack, hptr, hacked⟩ := forget_same hg
        have habove' : ∀ n ∈ rest, lastAck < n.seq := fun n hn => by
          have := (hrest.bounds hn).1
          omega
        have hnot : ¬ Raises lastAck f (head :: rest) := by
          rintro ⟨n, hn, hrn, hle', -⟩
          rcases List.mem_cons.mp hn with rfl | hn
          · exact hr hrn
          · exact absurd hle' (not_le.mpr (habove' n hn))
        have hpiece : PieceOf head { head with seq := lastAck + 1 } :=
          ⟨rfl, by change head.seq ≤ lastAck + 1; omega, ((if_neg hr).trans hend.symm).le,
            fun h => absurd h hr⟩
        refine ⟨hfack, fun h => Complete.trimHead (h.congr hptr) _, by simp [hnot],
          fun _ => hacked, List.forall_mem_cons.mpr ⟨lt_add_one lastAck, habove'⟩, ?_, ?_⟩
        · exact List.forall_mem_cons.mpr ⟨⟨head, List.mem_cons_self, hpiece⟩,
            fun m hm => ⟨m, List.mem_cons_of_mem head hm, .refl⟩⟩
        · intro n hn q hlt hq
          rcases List.mem_cons.mp hn with rfl | hn
          · refine ⟨_, List.mem_cons_self, hpiece, inside_iff.mpr ⟨?_, ?_⟩⟩
            · change lastAck + 1 ≤ q
              omega
            · exact (inside_iff.mp hq).2.trans_eq (hend.trans (if_neg hr).symm)
          · exact ⟨n, List.mem_cons_of_mem _ hn, .refl, hq⟩

/-- A board that reaches behind `fack_`, and whose pointer overlooks no lost packet. -/
structure Settled (sb : ScoreBoard1) (lastAck : ℤ) : Prop where
  counted : ∃ a b, lastAck < a ∧ Counted sb.toScoreBoard1Fields a sb.nodes b ∧
    (sb.nodes ≠ [] → sb.fack < b)
  fack : sb.nodes = [] → sb.fack = 0
  complete : Complete sb.toScoreBoard1Fields sb.nodes

theorem Settled.good (h : sb.Settled lastAck) : sb.Good lastAck := by
  obtain ⟨a, b, hlt, hc, -⟩ := h.counted
  refine ⟨⟨a, b, hlt, hc⟩, fun addr hp => ?_⟩
  obtain ⟨pre, n, post, hns, hn, -⟩ := h.complete.ahead addr hp
  exact ⟨n, by rw [hns]; simp, hn⟩

theorem clearScoreBoard_settled (sb : ScoreBoard1) (lastAck : ℤ) :
    sb.clearScoreBoard.Settled lastAck where
  counted := ⟨_, _, lt_add_one lastAck, ⟨rfl, rfl, rfl, by simp [clearScoreBoard], by
    simp [clearScoreBoard]⟩, fun h => absurd rfl h⟩
  fack _ := rfl
  complete := ⟨fun _ n hn => absurd hn (by simp [clearScoreBoard]),
    fun addr hp => absurd hp (by simp [clearScoreBoard])⟩

theorem advanceFack_cases (sb : ScoreBoard1) (sacks : List (ℤ × ℤ)) (thorough : Bool) :
    (∃ s ∈ sacks.head?, sb.fack < s.2 - 1 ∧
        sb.advanceFack sacks thorough = ({ sb with fack := s.2 - 1 }, true)) ∨
      (∀ s ∈ sacks.head?, s.2 - 1 ≤ sb.fack) ∧
        sb.advanceFack sacks thorough = (sb, thorough) := by
  rw [advanceFack]
  cases hs : sacks.head? with
  | none => exact .inr ⟨fun s hs => absurd hs (by simp), rfl⟩
  | some s =>
    obtain ⟨left, right⟩ := s
    dsimp only
    split_ifs with hlt
    · exact .inl ⟨_, rfl, hlt, rfl⟩
    · refine .inr ⟨fun s hs => ?_, rfl⟩
      obtain rfl := Option.some.inj hs
      exact not_lt.mp hlt

/-- The first node of a new board. -/
theorem newBoard_counted (h : Counted f a [] b) (hlt : lastAck < f.fack) :
    Counted { f with fresh := f.fresh + 1 } (lastAck + 1)
      [⟨f.fresh, .inflight, lastAck + 1, f.fack, 0⟩] (f.fack + 1) where
  tiles := ⟨rfl, hlt, rfl⟩
  sackOut := h.sackOut
  fackOut := h.fackOut
  addressed := by
    have hadd : Addressed f.fresh ([] ++ []) := h.addressed
    exact hadd.insert rfl

theorem Traversed.settled (h : Traversed f a sb) (hlt : lastAck < a)
    (hf : FirstLost sb.toScoreBoard1Fields sb.nodes) : sb.Settled lastAck := by
  obtain ⟨b, hc, hb⟩ := h.counted
  exact ⟨⟨a, b, hlt, hc, fun _ => hb⟩, fun hn => absurd hn h.ne_nil, hf.complete⟩

/-- A pass that learns something leaves a settled board. -/
theorem traverse_settled (d : ℤ) {flag : AckFlags} (h : Counted f a (head :: rest) b)
    (hlt : lastAck < a) :
    ∃ r, traverse d f head rest sacks true flag = .ok r ∧ r.1.Settled lastAck := by
  obtain ⟨r, hok, htr, hf⟩ := traverse_thorough d h
  exact ⟨r, hok, Traversed.settled htr hlt hf⟩

/-- The rightmost block does not advance `fack_`, and the pass overlooks a lost packet. -/
structure Stops (sb : ScoreBoard1) (sacks : List (ℤ × ℤ)) (thorough : Bool) (d : ℤ) : Prop where
  thorough : thorough = false
  fack : ∃ s ∈ sacks.head?, s.2 - 1 ≤ sb.fack
  overlooked : Overlooked sb.toScoreBoard1Fields d sb.nodes sacks.reverse

/-- What a pass without a new `fack_` does. -/
theorem traverse_stops {thorough : Bool} (d : ℤ) (flag : AckFlags)
    (h : Counted f a (head :: rest) b) (hlt : lastAck < a) (hb : f.fack < b)
    (hsort : sacks.reverse.Pairwise fun s t => s.1 ≤ t.1) (hprop : ∀ s ∈ sacks, s.1 < s.2)
    (hsacks : thorough = false → sacks ≠ []) :
    ∃ r, traverse d f head rest sacks.reverse thorough flag = .ok r ∧
      (¬ (thorough = false ∧ Overlooked f d (head :: rest) sacks.reverse) →
        r.1.Settled lastAck) ∧
      (thorough = false → Overlooked f d (head :: rest) sacks.reverse → ¬ r.1.Retransmits) := by
  cases thorough with
  | true =>
    obtain ⟨r, hok, hs⟩ := traverse_settled d h hlt
    exact ⟨r, hok, fun _ => hs, fun ht => absurd ht (by simp)⟩
  | false =>
    obtain ⟨r, hok, htr, hf, hover⟩ := traverse_quiet d flag h hb hsort
      (fun s hs => hprop s (List.mem_reverse.mp hs)) (by simpa using hsacks rfl)
    refine ⟨r, hok, fun hn => Traversed.settled htr hlt (hf fun ho => hn ⟨rfl, ho⟩),
      fun _ ho => ?_⟩
    obtain ⟨hp, hl⟩ := hover ho
    exact not_retransmits hp hl

theorem processSacks_settled {thorough : Bool} {flag : AckFlags}
    (hc : Counted sb.toScoreBoard1Fields a sb.nodes b) (hlt : lastAck < a)
    (hfack : sb.nodes ≠ [] → sb.fack < b)
    (hnew : sb.nodes = [] → lastAck < (sb.advanceFack sacks thorough).1.fack)
    (hsort : sacks.reverse.Pairwise fun s t => s.1 ≤ t.1) (hprop : ∀ s ∈ sacks, s.1 < s.2)
    (hsacks : thorough = false → sacks ≠ []) :
    ∃ r, sb.processSacks lastAck d sacks thorough flag = .ok r ∧
      (¬ sb.Stops sacks thorough d → r.1.Settled lastAck) ∧
      (sb.Stops sacks thorough d → ¬ r.1.Retransmits) := by
  rcases advanceFack_cases sb sacks thorough with ⟨s, hs, hadv, he⟩ | ⟨hstale, he⟩
  · rw [he] at hnew
    suffices h : ∃ r, sb.processSacks lastAck d sacks thorough flag = .ok r ∧
        r.1.Settled lastAck by
      obtain ⟨r, hok, hset⟩ := h
      refine ⟨r, hok, fun _ => hset, fun hstop => ?_⟩
      obtain ⟨t, ht, hle⟩ := hstop.fack
      obtain rfl := Option.some.inj (hs.symm.trans ht)
      omega
    rw [processSacks, he]
    dsimp only at hnew ⊢
    cases hn : sb.nodes with
    | nil =>
      rw [hn] at hc
      have hc' : Counted { sb.toScoreBoard1Fields with fack := s.2 - 1 } a [] b :=
        ⟨hc.tiles, hc.sackOut, hc.fackOut, hc.addressed⟩
      exact traverse_settled d (newBoard_counted hc' (hnew hn)) (lt_add_one lastAck)
    | cons head rest =>
      rw [hn] at hc
      have hc' : Counted { sb.toScoreBoard1Fields with fack := s.2 - 1 } a (head :: rest) b :=
        ⟨hc.tiles, hc.sackOut, hc.fackOut, hc.addressed⟩
      exact traverse_settled d hc' hlt
  · rw [he] at hnew
    have hstop : sb.Stops sacks thorough d ↔ thorough = false ∧
        Overlooked sb.toScoreBoard1Fields d sb.nodes sacks.reverse := by
      refine ⟨fun h => ⟨h.thorough, h.overlooked⟩, fun h => ⟨h.1, ?_, h.2⟩⟩
      cases hs : sacks.head? with
      | none => exact absurd (List.head?_eq_none_iff.mp hs) (hsacks h.1)
      | some s => exact ⟨s, rfl, hstale s hs⟩
    rw [hstop, processSacks, he]
    dsimp only at hnew ⊢
    cases hn : sb.nodes with
    | nil =>
      rw [hn] at hc
      obtain ⟨r, hok, hset, -⟩ := traverse_stops d flag
        (newBoard_counted hc (hnew hn)) (lt_add_one lastAck) (lt_add_one sb.fack) hsort hprop hsacks
      refine ⟨r, hok, fun _ => hset ?_, ?_⟩
      · rintro ⟨-, -, e, -, -, q, -, k, hk, hkl, -⟩
        obtain rfl := List.mem_singleton.mp hk
        exact absurd hkl (by simp)
      · rintro ⟨-, -, e, ⟨⟨k, hk, -⟩, -⟩, -⟩
        exact absurd hk (by simp)
    | cons head rest =>
      rw [hn] at hc
      obtain ⟨r, hok, hset, hover⟩ := traverse_stops d flag hc hlt
        (hfack (by simp [hn])) hsort hprop hsacks
      exact ⟨r, hok, hset, fun h => hover h.1 h.2⟩

theorem processHeader_settled {blocks : List (ℤ × ℤ)} (thorough : Bool) (flag : AckFlags)
    (h : sb.Settled lastAck) (hprop : ∀ s ∈ blocks, s.1 < s.2)
    (hthorough : sb.nodes = [] → thorough = false)
    (hopen : sb.nodes = [] →
      ∀ s ∈ (filterSacks lastAck blocks).head?, lastAck < 0 ∨ lastAck + 1 < s.2) (d : ℤ) :
    ∃ r, sb.processHeader lastAck blocks d thorough flag = .ok r ∧
      (¬ sb.Stops (filterSacks lastAck blocks) thorough d → r.1.Settled lastAck) ∧
      (sb.Stops (filterSacks lastAck blocks) thorough d → ¬ r.1.Retransmits) := by
  rw [processHeader]
  by_cases hearly : thorough = false ∧ (blocks = [] ∨ filterSacks lastAck blocks = [])
  · refine ⟨_, if_pos hearly, fun _ => h, ?_⟩
    rintro ⟨-, ⟨s, hs, -⟩, -⟩
    have hnil : filterSacks lastAck blocks = [] := by
      rcases hearly.2 with rfl | hnil
      · rfl
      · exact hnil
    rw [hnil] at hs
    exact absurd hs (by simp)
  · have hsacks : thorough = false → filterSacks lastAck blocks ≠ [] := fun ht hn =>
      hearly ⟨ht, .inr hn⟩
    obtain ⟨a, b, hlt, hc, hfack⟩ := h.counted
    rw [if_neg hearly]
    refine processSacks_settled hc hlt hfack (fun hn => ?_) (filterSacks_sorted lastAck blocks)
      (fun s hs => hprop s (mem_filterSacks.mp hs).1) hsacks
    obtain ⟨s, sacks, hs⟩ := List.exists_cons_of_ne_nil (hsacks (hthorough hn))
    have hlast := hopen hn s (by rw [hs]; rfl)
    have hzero := h.fack hn
    rcases advanceFack_cases sb (filterSacks lastAck blocks) thorough with
      ⟨t, ht, hadv, he⟩ | ⟨hstale, he⟩
    · obtain rfl : t = s := by simpa [hs] using ht.symm
      rw [he]
      change lastAck < t.2 - 1
      omega
    · have := hstale s (by rw [hs]; rfl)
      rw [he]
      change lastAck < sb.fack
      omega

/-- The ACK raises neither `fack_` nor `acked_rtx_id_` and SACKs no retransmission, and behind the
first packet that follows all blocks and is not SACKed lies a lost one, but none up to there is
found lost. -/
structure Overlooks (sb : ScoreBoard1) (lastAck : ℤ) (blocks : List (ℤ × ℤ)) (d : ℤ) : Prop where
  acked : ¬ Raises lastAck sb.toScoreBoard1Fields sb.nodes
  fack : ∃ s ∈ (filterSacks lastAck blocks).head?, s.2 - 1 ≤ sb.fack
  sacked : ∀ n ∈ sb.nodes, n.flag = .retransmitted → lastAck < n.seq →
    Uncovered (filterSacks lastAck blocks) n.seq
  behind : ∃ e > lastAck, Beyond sb.nodes (filterSacks lastAck blocks) e ∧
    (∀ q ≤ e, lastAck < q → ¬ FindsLost sb.toScoreBoard1Fields d sb.nodes
      (filterSacks lastAck blocks) q) ∧
    ∃ q > e, LiesLost sb.nodes q

@[simp] theorem uncovered_reverse : Uncovered sacks.reverse q ↔ Uncovered sacks q := by
  simp [Uncovered]

@[simp] theorem beyond_reverse : Beyond ns sacks.reverse q ↔ Beyond ns sacks q :=
  ⟨fun h => ⟨h.node, fun s hs => h.blocks s (List.mem_reverse.mpr hs)⟩,
    fun h => ⟨h.node, fun s hs => h.blocks s (List.mem_reverse.mp hs)⟩⟩

@[simp] theorem findsLost_reverse :
    FindsLost f d ns sacks.reverse q ↔ FindsLost f d ns sacks q := by
  simp [FindsLost]

theorem findsLost_congr {g : ScoreBoard1Fields} (hf : f.fack = g.fack)
    (ha : f.ackedRtxId = g.ackedRtxId) : FindsLost f d ns sacks q ↔ FindsLost g d ns sacks q := by
  simp only [FindsLost, falls_congr hf ha]

/-- Whether the pass stops too early depends on the board before its queue is cleaned. -/
theorem overlooks_iff {sb' : ScoreBoard1} {blocks : List (ℤ × ℤ)} {thorough : Bool}
    (h : Cleaned lastAck sb.toScoreBoard1Fields sb'.toScoreBoard1Fields sb.nodes sb'.nodes false
      thorough) (hns : Blocks a sb.nodes b) :
    sb'.Stops (filterSacks lastAck blocks) thorough d ↔ sb.Overlooks lastAck blocks d := by
  have hthorough : thorough = false ↔ ¬ Raises lastAck sb.toScoreBoard1Fields sb.nodes := by
    rw [← Bool.not_eq_true, h.changed]
    simp
  constructor
  · rintro ⟨ht, hfack, hlearn, e, he, hnone, q, hq, hl⟩
    have hraise := hthorough.mp ht
    obtain ⟨hlt, he⟩ := h.trims.beyond_iff.mp he
    rw [h.fack] at hfack
    rw [h.trims.learns_iff hns] at hlearn
    refine ⟨hraise, hfack, fun n hn hr hlt => ?_, e, hlt, beyond_reverse.mp he,
      fun q hq hlt hf => hnone q hq (h.trims.findsLost_iff.mpr ⟨hlt, ?_⟩), q, hq,
      (h.trims.liesLost_iff.mp hl).2⟩
    · by_contra hcov
      exact hlearn ⟨n, hn, hr, hlt, by simpa using hcov⟩
    · rw [findsLost_reverse, findsLost_congr h.fack (h.ackedRtxId hraise)]
      exact hf
  · rintro ⟨hraise, hfack, hsacked, e, hlt, he, hnone, q, hq, hl⟩
    refine ⟨hthorough.mpr hraise, by rw [h.fack]; exact hfack, ?_, e,
      h.trims.beyond_iff.mpr ⟨hlt, beyond_reverse.mpr he⟩, fun q hq hf => ?_, q, hq,
      h.trims.liesLost_iff.mpr ⟨by omega, hl⟩⟩
    · rw [h.trims.learns_iff hns]
      rintro ⟨n, hn, hr, hlt, hcov⟩
      exact hcov (uncovered_reverse.mpr (hsacked n hn hr hlt))
    · obtain ⟨hlt, hf⟩ := h.trims.findsLost_iff.mp hf
      rw [findsLost_reverse, findsLost_congr h.fack (h.ackedRtxId hraise)] at hf
      exact hnone q hq hlt hf

/-- The board behind the queue cleaning still reaches behind `fack_`. -/
theorem cleaned_settled {acked : ℤ} {sb' : ScoreBoard1} {changed changed' : Bool}
    (h : sb.Settled acked) (hg : sb'.Good lastAck) (hne : sb'.nodes ≠ [])
    (hclean : Cleaned lastAck sb.toScoreBoard1Fields sb'.toScoreBoard1Fields sb.nodes sb'.nodes
      changed changed') : sb'.Settled lastAck := by
  obtain ⟨a, b, -, hc, hfack⟩ := h.counted
  obtain ⟨⟨a', b', hlt, hc'⟩, -⟩ := hg
  refine ⟨⟨a', b', hlt, hc', fun _ => ?_⟩, fun hn => absurd hn hne, hclean.complete h.complete⟩
  obtain ⟨m, hm⟩ := List.exists_mem_of_ne_nil _ hne
  obtain ⟨n, hn, hp⟩ := hclean.trims.pieces m hm
  have hmlt := hclean.trims.above m hm
  have hmle := (hc'.tiles.bounds hm).2.1
  have hend := hp.end_le
  obtain ⟨hago, -, hnb⟩ := hc.tiles.bounds hn
  have hseq := hp.le
  obtain ⟨k, hk, hkq⟩ := hc.tiles.exists_mem (q := b - 1) (by omega) (by omega)
  obtain ⟨m', hm', -, hq⟩ := hclean.trims.kept k hk (b - 1) (by omega) (inside_iff.mpr hkq)
  have hlast := (inside_iff.mp hq).2
  have := (hc'.tiles.bounds hm').2.2
  have := hfack (List.ne_nil_of_mem hn)
  rw [hclean.fack]
  omega

/-- The call leaves a settled board, unless it overlooks a lost packet. -/
theorem updateScoreBoard_settled {acked : ℤ} {blocks : List (ℤ × ℤ)} (h : sb.Settled acked)
    (hprop : ∀ s ∈ blocks, s.1 < s.2) (hopen : sb.OpensAbove lastAck blocks) (d : ℤ) :
    ∃ r, sb.updateScoreBoard lastAck blocks d = .ok r ∧
      (¬ sb.Overlooks lastAck blocks d → r.1.Settled lastAck) ∧
      (sb.Overlooks lastAck blocks d → ¬ r.1.Retransmits) := by
  obtain ⟨⟨a, b, -, hc⟩, hp⟩ := h.good
  obtain ⟨sb', thorough, flag, he, hg, hnil⟩ := cleanRtxQueue_good hc hp lastAck false {}
  have hclean := cleanRtxQueue_cleaned hc.tiles he
  rw [updateScoreBoard, he]
  change ∃ r, (if sb'.nodes = [] then _ else _) = _ ∧ _
  split_ifs with hn
  · have hnot : ¬ sb.Overlooks lastAck blocks d := by
      rintro ⟨-, -, -, e, hlt, ⟨⟨n, hmem, -, hq⟩, -⟩, -⟩
      have := hnil hn n hmem
      have := (inside_iff.mp hq).2
      omega
    obtain ⟨r, hok, hset, -⟩ := processHeader_settled false flag
      (sb'.clearScoreBoard_settled lastAck) hprop (fun _ => rfl) (fun _ => hopen (hnil hn)) d
    refine ⟨r, hok, fun _ => hset fun hstop => ?_, fun ho => absurd ho hnot⟩
    obtain ⟨-, e, ⟨⟨n, hmem, -⟩, -⟩, -⟩ := hstop.overlooked
    exact absurd hmem (by simp [clearScoreBoard])
  · obtain ⟨r, hok, hset, hover⟩ := processHeader_settled thorough flag
      (cleaned_settled h hg hn hclean) hprop (fun h => absurd h hn) (fun h => absurd h hn) d
    rw [overlooks_iff hclean hc.tiles] at hset hover
    exact ⟨r, hok, hset, hover⟩

/-- A pass of `MarkLoss` visits all nodes. -/
theorem markLoss_settled {sndUna sndNxt : ℤ} (h : sb.Settled lastAck) (hack : -1 ≤ lastAck)
    (hu : lastAck < sndUna) :
    ∃ sb', sb.markLoss sndUna sndNxt = .ok sb' ∧ sb'.Settled lastAck := by
  obtain ⟨a, b, hlt, hc, hfack⟩ := h.counted
  obtain ⟨sb', hok, hm⟩ := markLoss_marked sndNxt hc hlt hu
  obtain ⟨a', b', hlt', hc', hle, hnew⟩ := hm.counted
  refine ⟨sb', hok, ⟨a', b', hlt', hc', fun hne => ?_⟩, fun hn => ?_, hm.firstLost.complete⟩
  · rw [hm.fack]
    by_cases hn : sb.nodes = []
    · have := h.fack hn
      have := hnew hn hne
      omega
    · exact (hfack hn).trans_le (hle hn)
  · rw [hm.fack]
    exact h.fack (hm.nil hn)

/-- The recommended packet is retransmitted, and no lost packet lies before the next one. -/
theorem retransmit_settled (h : sb.Settled lastAck) (hack : -1 ≤ lastAck) (sndNxt : ℤ) :
    ∃ sb', (ScoreBoard1Call.retransmit sndNxt).run sb = .ok sb' ∧ sb'.Settled lastAck := by
  obtain ⟨a, b, hlt, hc, hfack⟩ := h.counted
  obtain ⟨addr, q, hok, hq⟩ := getNextRetran_complete hc.addressed h.complete
  rw [ScoreBoard1Call.run, hok]
  change ∃ sb', (if q = -1 then _ else _) = _ ∧ _
  rcases hq with ⟨rfl, rfl, hnone⟩ | ⟨pre, n, post, hnodes, rfl, rfl, hl, hpre⟩
  · rw [if_pos rfl]
    exact ⟨_, rfl, ⟨a, b, hlt, ⟨hc.tiles, hc.sackOut, hc.fackOut, hc.addressed⟩, hfack⟩, h.fack,
      fun _ => hnone, fun addr ha => absurd ha (by simp)⟩
  · have hseq : n.seq ≠ -1 := by
      have := (hc.tiles.bounds (hnodes ▸ by simp : n ∈ sb.nodes)).1
      omega
    rw [if_neg hseq]
    have hcount : Counted { sb.toScoreBoard1Fields with nxtToRetrx := some n.addr } a sb.nodes b :=
      ⟨hc.tiles, hc.sackOut, hc.fackOut, hc.addressed⟩
    obtain ⟨sb', hok', hfack', hp', hc', m, ms, hnodes', hm⟩ :=
      markRetran_at (s := { sb with nxtToRetrx := some n.addr }) sndNxt hcount hnodes rfl hl
    have hne : sb.nodes ≠ [] := by simp [hnodes]
    refine ⟨sb', hok', ⟨a, b, hlt, hc', fun _ => hfack' ▸ hfack hne⟩, fun hn => ?_,
      fun hnull => ?_, fun addr ha => ?_⟩
    · rw [hnodes'] at hn
      exact absurd hn (by simp)
    · exact absurd (hp'.symm.trans hnull) (by simp)
    · obtain rfl := Option.some.inj (hp'.symm.trans ha)
      exact ⟨pre, m, ms, hnodes', hm, hpre⟩

end ScoreBoard1

namespace ScoreBoard1Call

/-- An update with proper blocks opens a new board above the ACK and overlooks no lost packet. -/
def Attentive (p : ScoreBoard1 × ℤ) : ScoreBoard1Call → Prop
  | .updateScoreBoard lastAck blocks d =>
    (∀ s ∈ blocks, s.1 < s.2) ∧ p.1.OpensAbove lastAck blocks ∧ ¬ p.1.Overlooks lastAck blocks d
  | _ => True

theorem run_settled {p : ScoreBoard1 × ℤ} {c : ScoreBoard1Call} (h : p.1.Settled p.2)
    (hack : -1 ≤ p.2) (hl : Legal p c) (ha : Attentive p c) :
    ∃ sb, c.run p.1 = .ok sb ∧ sb.Settled (c.ackAfter p.2) := by
  cases c with
  | updateScoreBoard lastAck blocks d =>
    obtain ⟨hprop, hopen, hnot⟩ := ha
    obtain ⟨r, hok, hset, -⟩ := ScoreBoard1.updateScoreBoard_settled h hprop hopen d
    exact ⟨r.1, by rw [run, hok]; rfl, hset hnot⟩
  | retransmit sndNxt => exact ScoreBoard1.retransmit_settled h hack sndNxt
  | markLoss sndUna sndNxt => exact ScoreBoard1.markLoss_settled h hack hl
  | clearScoreBoard => exact ⟨_, rfl, ScoreBoard1.clearScoreBoard_settled p.1 p.2⟩

end ScoreBoard1Call

theorem linuxScoring_settled {acked : ℤ} (hack : -1 ≤ acked) :
    ((linuxScoring acked).restrict ScoreBoard1Call.Attentive).Invariant
      fun p => p.1.Settled p.2 ∧ -1 ≤ p.2 where
  init p hi := by
    obtain rfl : p = (newScoreBoard1, acked) := hi
    exact ⟨ScoreBoard1.clearScoreBoard_settled newScoreBoard1 acked, hack⟩
  step p c p' h he hs := by
    obtain ⟨sb, hok, hset⟩ := ScoreBoard1Call.run_settled h.1 h.2 he.1 he.2
    change (c.run p.1).map _ = _ at hs
    rw [hok] at hs
    obtain rfl := Except.ok.inj hs
    refine ⟨hset, ?_⟩
    cases c with
    | updateScoreBoard lastAck blocks d => exact h.2.trans he.1
    | retransmit sndNxt => exact h.2
    | markLoss sndUna sndNxt => exact h.2
    | clearScoreBoard => exact h.2

/-- A board that is opened with an empty node may recommend it. -/
theorem linuxScoring_recommends_empty :
    ∃ p, (linuxScoring (-1)).Reachable p ∧ p.2 = 3 ∧ ∃ r,
      p.1.updateScoreBoard 3 [(4, 5)] 3 = .ok r ∧ LiesLost r.1.nodes 5 ∧ ¬ LiesLost r.1.nodes 4 ∧
      ∃ sb, r.1.getNextRetran = .ok (sb, 4) := by
  have hinit : (linuxScoring (-1)).Reachable (newScoreBoard1, -1) := .init rfl
  obtain ⟨p, h, hp⟩ := hinit.exists_of_exec
    [.updateScoreBoard 3 [(3, 4)] 3, .updateScoreBoard 3 [(4, 5)] 3, .markLoss 4 7]
    (fun p => p.2 = 3 ∧ ((p.1.updateScoreBoard 3 [(4, 5)] 3).toOption.any fun r =>
      r.1.nodes.any (fun n => n.flag = .lost ∧ n.Inside 5) ∧
      (¬ ∃ n ∈ r.1.nodes, n.flag = .lost ∧ n.Inside 4) ∧
      (r.1.getNextRetran.toOption.any fun s => s.2 = 4))) (by decide +kernel)
  obtain ⟨hack, hr⟩ := of_decide_eq_true hp
  obtain ⟨r, hok, hl, hnot, hq⟩ := exists_of_toOption_any hr
  obtain ⟨n, hn, hl⟩ := List.any_eq_true.mp hl
  obtain ⟨⟨sb, q⟩, hnext, rfl⟩ := exists_of_toOption_any hq
  exact ⟨p, h, hack, r, hok, ⟨n, hn, of_decide_eq_true hl⟩, hnot, sb, hnext⟩

end Ns2XPass
