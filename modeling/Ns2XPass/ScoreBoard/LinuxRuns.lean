import Ns2XPass.ScoreBoard.Blocks

/-! # Runs of the scoreboard of TCP-Linux

A board stays good as long as no new board is opened by a block that ends at
the packet behind the last ACK.
-/

namespace Ns2XPass

open ScoreBoardNode1

variable {sb : ScoreBoard1} {f : ScoreBoard1Fields} {head n : ScoreBoardNode1}
  {rest ns : List ScoreBoardNode1} {c : Cursor} {a b lastAck : ℤ}

namespace ScoreBoard1

theorem sum_getLength (h : Blocks a ns b) :
    (((ns.map fun n => n.getLength.toNat).sum : ℕ) : ℤ) = b - a := by
  induction ns generalizing a with
  | nil => simp [tiles_nil.mp h]
  | cons n ns ih =>
    obtain ⟨rfl, hle, hns⟩ := h
    rw [List.map_cons, List.sum_cons, Nat.cast_add, ih hns, getLength_eq]
    omega

/-- What each step of a pass keeps holds of the last node that is visited or of the first one that
is not. -/
theorem traverse_rule {P : Traversal → Prop} {sacks : List (ℤ × ℤ)} {thorough : Bool}
    {flag : AckFlags} (dupackThreshold : ℤ)
    (hstep : ∀ t c, P t → (t.sacks ≠ [] ∨ t.thorough = true) →
      (t.visit dupackThreshold).next = some c → P { t.visit dupackThreshold with toCursor := c })
    (h : Counted f a (head :: rest) b)
    (hP : P ⟨⟨{ f with nxtToRetrx := none }, [], head, rest⟩, sacks, thorough, flag⟩) :
    ∃ t b', traverse dupackThreshold f head rest sacks thorough flag = .ok (t.toBoard, t.flag) ∧
      t.Sound a b' ∧ t.fack = f.fack ∧
      (t.Visited a b' ∧ t.rest = [] ∧ (∃ t₀, P t₀ ∧ (t₀.sacks ≠ [] ∨ t₀.thorough = true) ∧
          t = t₀.visit dupackThreshold) ∨
        t.Entered a b' ∧ P t ∧ t.sacks = [] ∧ t.thorough = false) := by
  have hsum := sum_getLength h.tiles
  have hseq := h.tiles.1
  have he : Cursor.Entered ⟨{ f with nxtToRetrx := none }, [], head, rest⟩ a b :=
    ⟨⟨h.tiles, h.sackOut, h.fackOut, h.addressed⟩, rfl⟩
  obtain ⟨t, b', hok, hs, -, hfack, hend⟩ := Traversal.loop_rule dupackThreshold hstep
    (k := steps f.fack head rest) he hP (by
      change max b (f.fack + 1) - head.seq ≤ _
      rw [steps, Nat.cast_add, Nat.cast_add, hsum]
      omega)
  rw [traverse, hok]
  exact ⟨t, b', rfl, hs, hfack, hend⟩

theorem traverse_good {sacks : List (ℤ × ℤ)} {thorough : Bool} {flag : AckFlags}
    (dupackThreshold : ℤ) (h : Counted f a (head :: rest) b) (hlt : lastAck < a) :
    ∃ r, traverse dupackThreshold f head rest sacks thorough flag = .ok r ∧ r.1.Good lastAck := by
  obtain ⟨t, b', hok, hs, -, hend⟩ := traverse_rule (P := fun _ => True) dupackThreshold
    (fun _ _ _ _ _ => trivial) h trivial
  refine ⟨_, hok, ⟨a, b', hlt, hs⟩, ?_⟩
  rcases hend with ⟨hv, -⟩ | ⟨he, -⟩
  · refine hv.firstLost.points fun n hn => ?_
    simp only [List.mem_append, List.mem_singleton] at hn
    simp only [Cursor.toBoard, Cursor.nodes, List.mem_append, List.mem_cons]
    tauto
  · exact he.firstLost.points (List.subset_append_left _ _)

/-- A new board, if any, has packets. -/
theorem processSacks_good {sacks : List (ℤ × ℤ)} {thorough : Bool} {flag : AckFlags}
    (dupackThreshold : ℤ) (h : sb.Good lastAck)
    (hnew : sb.nodes = [] → lastAck < (sb.advanceFack sacks thorough).1.fack) :
    ∃ r, sb.processSacks lastAck dupackThreshold sacks thorough flag = .ok r ∧
      r.1.Good lastAck := by
  obtain ⟨sb', thorough', he⟩ : ∃ sb' thorough', sb.advanceFack sacks thorough = (sb', thorough') :=
    ⟨_, _, rfl⟩
  have hsame : sb'.nodes = sb.nodes ∧ sb'.sackOut = sb.sackOut ∧ sb'.fackOut = sb.fackOut ∧
      sb'.fresh = sb.fresh := by
    rw [advanceFack] at he
    split at he
    · obtain ⟨rfl, -⟩ := Prod.mk.inj he; exact ⟨rfl, rfl, rfl, rfl⟩
    · split_ifs at he
      · obtain ⟨rfl, -⟩ := Prod.mk.inj he; exact ⟨rfl, rfl, rfl, rfl⟩
      · obtain ⟨rfl, -⟩ := Prod.mk.inj he; exact ⟨rfl, rfl, rfl, rfl⟩
  obtain ⟨hn, hs, hl, hf⟩ := hsame
  obtain ⟨⟨a, b, hlt, hc⟩, -⟩ := h
  rw [he] at hnew
  rw [processSacks, he]
  dsimp only
  cases hnodes : sb'.nodes with
  | nil =>
    have hfack : lastAck < sb'.fack := hnew (hn ▸ hnodes)
    rw [← hn, hnodes] at hc
    refine traverse_good dupackThreshold (b := sb'.fack + 1) ⟨⟨rfl, hfack, rfl⟩, ?_, ?_, ?_⟩
      (lt_add_one lastAck)
    · exact hs.trans hc.sackOut
    · exact hl.trans hc.fackOut
    · exact (hf ▸ hc.addressed : Addressed sb'.fresh ([] ++ [])).insert rfl
  | cons head rest =>
    rw [← hn, hnodes] at hc
    exact traverse_good dupackThreshold ⟨hc.tiles, hs.trans hc.sackOut, hl.trans hc.fackOut,
      hf ▸ hc.addressed⟩ hlt

/-- When all nodes are acked, a block that is not filtered out opens a new board: its last packet
lies above the ACK. -/
def OpensAbove (sb : ScoreBoard1) (lastAck : ℤ) (blocks : List (ℤ × ℤ)) : Prop :=
  (∀ n ∈ sb.nodes, n.getEnd ≤ lastAck) →
    ∀ s ∈ (filterSacks lastAck blocks).head?, lastAck < 0 ∨ lastAck + 1 < s.2

theorem updateScoreBoard_good {blocks : List (ℤ × ℤ)} (dupackThreshold : ℤ) {acked : ℤ}
    (h : sb.Good acked) (hopen : sb.OpensAbove lastAck blocks) :
    ∃ r, sb.updateScoreBoard lastAck blocks dupackThreshold = .ok r ∧ r.1.Good lastAck := by
  obtain ⟨⟨a, b, -, hc⟩, hp⟩ := h
  obtain ⟨sb', changed, flag, he, hg, hnil⟩ := cleanRtxQueue_good hc hp lastAck false {}
  rw [updateScoreBoard, he]
  change ∃ r, (if sb'.nodes = [] then _ else _) = _ ∧ _
  split_ifs with hn
  · have hclear : sb'.clearScoreBoard.Good lastAck :=
      ⟨⟨_, _, lt_add_one lastAck, rfl, rfl, rfl, ⟨by simp [clearScoreBoard], by
        simp [clearScoreBoard]⟩⟩, fun addr ha => absurd ha (by simp [clearScoreBoard])⟩
    rw [processHeader]
    split_ifs with hc
    · exact ⟨_, rfl, hclear⟩
    · refine processSacks_good dupackThreshold hclear fun _ => ?_
      obtain ⟨s, sacks, hs⟩ : ∃ s sacks, filterSacks lastAck blocks = s :: sacks :=
        List.exists_cons_of_ne_nil fun he => hc ⟨rfl, .inr he⟩
      have hlast := hopen (hnil hn) s (by rw [hs]; rfl)
      rw [hs]
      change lastAck < (if (0 : ℤ) < s.2 - 1 then _ else _ : ScoreBoard1 × Bool).1.fack
      split_ifs
      · change lastAck < s.2 - 1
        omega
      · change lastAck < 0
        omega
  · rw [processHeader]
    split_ifs
    · exact ⟨_, rfl, hg⟩
    · exact processSacks_good dupackThreshold hg fun he => absurd he hn

theorem clearScoreBoard_good (sb : ScoreBoard1) (lastAck : ℤ) : sb.clearScoreBoard.Good lastAck :=
  ⟨⟨_, _, lt_add_one lastAck, rfl, rfl, rfl, ⟨by simp [clearScoreBoard], by
    simp [clearScoreBoard]⟩⟩, fun addr ha => absurd ha (by simp [clearScoreBoard])⟩

theorem loseAll_entered (h : c.Entered a b) (hs : c.now.flag ≠ .sacked) :
    (loseAll c).Entered a b := by
  have hend : (c.now.setFlag .lost).getEnd = c.now.getEnd := getEnd_setFlag (by simp)
  have hlen : (c.now.setFlag .lost).getLength = c.now.getEnd - c.now.seq + 1 := by
    rw [getLength_eq, hend]
    exact (sub_add_eq_add_sub _ _ _).symm
  refine ⟨h.sound.relabel le_rfl rfl rfl hend ?_ ?_, h.firstLost⟩
  · simp only [packets_cons, packets_nil, if_neg hs]
    rfl
  · have hnew : packets .lost [c.now.setFlag .lost] = c.now.getEnd - c.now.seq + 1 + 0 := by
      have hf : (c.now.setFlag .lost).flag = .lost := rfl
      rw [packets_cons, if_pos hf, hlen, packets_nil]
    have hfack : (loseAll c).fackOut = if c.now.flag = .lost then c.fackOut
        else c.fackOut + (c.now.getEnd - c.now.seq + 1) := rfl
    change (loseAll c).fackOut + _ = c.fackOut + packets .lost [c.now.setFlag .lost]
    rw [hnew, hfack, packets_cons, packets_nil, getLength_eq]
    split_ifs <;> omega

/-- A lost node is merged only into a lost node. -/
theorem joinLost_visited {lastLost : Bool} (h : c.Entered a b) (hl : c.now.flag = .lost)
    (hlast : lastLost = true → ∃ prev before, c.before = prev :: before ∧ prev.flag = .lost) :
    (joinLost c lastLost).Visited a b ∧ (joinLost c lastLost).rest = c.rest ∧
      (joinLost c lastLost).now.flag = .lost := by
  rw [joinLost.eq_def]
  cases lastLost with
  | false => exact ⟨h.recommend hl, rfl, hl⟩
  | true =>
    obtain ⟨prev, before, hb, hp⟩ := hlast rfl
    rw [hb]
    exact ⟨(h.visited_of_lost hb hp).merge hb (by simp [hl]) (hl.trans hp.symm), rfl, hp⟩

theorem loseNow_visited {lastLost : Bool} (h : c.Entered a b)
    (hlast : lastLost = true → ∃ prev before, c.before = prev :: before ∧ prev.flag = .lost) :
    (loseNow c lastLost).1.Visited a b ∧ (loseNow c lastLost).1.rest = c.rest ∧
      ((loseNow c lastLost).2 = true → (loseNow c lastLost).1.now.flag = .lost) := by
  rw [loseNow]
  split_ifs with hs
  · exact ⟨h.visited (by simp [hs]), rfl, by simp⟩
  · obtain ⟨hv, hr, hf⟩ := joinLost_visited (loseAll_entered h hs) rfl hlast
    exact ⟨hv, hr, fun _ => hf⟩

@[simp] theorem loseNow_fack (c : Cursor) (lastLost : Bool) :
    (loseNow c lastLost).1.fack = c.fack := by
  rw [loseNow]
  split_ifs
  · rfl
  · rw [joinLost.eq_def]
    split <;> rfl

/-- The loop ends: at most one node is appended. -/
theorem markLossLoop_sound (sndNxt : ℤ) {k : ℕ} {lastLost : Bool} (h : c.Entered a b)
    (hlast : lastLost = true → ∃ prev before, c.before = prev :: before ∧ prev.flag = .lost)
    (hk : c.rest.length + (if b < sndNxt then 2 else 1) ≤ k) :
    ∃ c', markLossLoop sndNxt k c lastLost = .ok c' ∧ c'.fack = c.fack ∧
      ∃ b' ≥ b, c'.Sound a b' ∧ FirstLost c'.toScoreBoard1Fields c'.nodes := by
  induction k generalizing c b lastLost with
  | zero => split_ifs at hk <;> omega
  | succ k ih =>
    obtain ⟨hv, hrest, hf⟩ := loseNow_visited h hlast
    have hfack := loseNow_fack c lastLost
    obtain ⟨c₁, lost, he⟩ : ∃ c₁ lost, loseNow c lastLost = (c₁, lost) := ⟨_, _, rfl⟩
    rw [he] at hv hrest hf hfack
    dsimp only at hv hrest hf hfack
    rw [markLossLoop, he]
    dsimp only
    obtain ⟨c₂, hc₂⟩ : ∃ c₂, (if c₁.rest = [] ∧ c₁.now.getEnd + 1 < sndNxt then
      c₁.append (c₁.now.getEnd + 1) (sndNxt - 1) else c₁) = c₂ := ⟨_, rfl⟩
    rw [hc₂]
    have hv₂ : ∃ b' ≥ b, c₂.Visited a b' ∧ c₂.now = c₁.now ∧ c₂.fack = c₁.fack ∧
        c₂.rest.length + (if b' < sndNxt then 2 else 1) ≤ k + 1 := by
      split_ifs at hc₂ with hc
      · obtain ⟨-, -, hpost⟩ := tiles_middle.mp hv.sound.tiles
        rw [hc.1] at hpost
        obtain rfl := tiles_nil.mp hpost
        obtain rfl := hc₂
        refine ⟨_, ?_, hv.append hc.1 (by omega), rfl, rfl, ?_⟩
        · rw [sub_add_cancel]
          exact hc.2.le
        · rw [← hrest, hc.1, if_pos hc.2] at hk
          rw [if_neg (by omega)]
          exact hk
      · obtain rfl := hc₂
        exact ⟨b, le_rfl, hv, rfl, rfl, hrest ▸ hk⟩
    obtain ⟨b', hb', hv', hnow, hfack', hk'⟩ := hv₂
    cases hn : c₂.next with
    | none =>
      have hnil : c₂.rest = [] := by
        rw [Cursor.next] at hn
        cases hr : c₂.rest with
        | nil => rfl
        | cons n rest => rw [hr] at hn; exact absurd hn (by simp)
      refine ⟨c₂, rfl, hfack'.trans hfack, b', hb', hv'.sound, ?_⟩
      rw [Cursor.nodes, hnil]
      exact hv'.firstLost
    | some c₃ =>
      obtain ⟨hent, -, hfack₃⟩ := hv'.next hn
      obtain ⟨hb₃, hr₃⟩ := Cursor.next_eq hn
      rw [hr₃, List.length_cons] at hk'
      obtain ⟨c', hok, hfack₄, b'', hb'', hs⟩ :=
        ih hent (fun hl => ⟨_, _, hb₃, hnow ▸ hf hl⟩) (by omega)
      exact ⟨c', hok, ((hfack₄.trans hfack₃).trans hfack').trans hfack, b'', hb'.trans hb'', hs⟩

/-- What `MarkLoss` does to a board. -/
structure Marked (sb : ScoreBoard1) (lastAck sndUna b : ℤ) (sb' : ScoreBoard1) : Prop where
  fack : sb'.fack = sb.fack
  firstLost : FirstLost sb'.toScoreBoard1Fields sb'.nodes
  nil : sb'.nodes = [] → sb.nodes = []
  counted : ∃ a b', lastAck < a ∧ Counted sb'.toScoreBoard1Fields a sb'.nodes b' ∧
    (sb.nodes ≠ [] → b ≤ b') ∧ (sb.nodes = [] → sb'.nodes ≠ [] → sndUna < b')

theorem markLoss_marked {sndUna : ℤ} (sndNxt : ℤ) (hc : Counted sb.toScoreBoard1Fields a sb.nodes b)
    (hlt : lastAck < a) (hu : lastAck < sndUna) :
    ∃ sb', sb.markLoss sndUna sndNxt = .ok sb' ∧ Marked sb lastAck sndUna b sb' := by
  rw [markLoss]
  cases hn : sb.nodes with
  | nil =>
    rw [hn] at hc
    dsimp only
    split_ifs with hs
    · have hadd : Addressed sb.fresh ([] ++ []) := hc.addressed
      refine ⟨_, rfl, rfl, rfl, fun _ => hn, sndUna, sndNxt, hu,
        ⟨⟨rfl, ?_, sub_add_cancel sndNxt 1⟩, hc.sackOut, ?_, hadd.insert rfl⟩,
        fun h => absurd hn h, fun _ _ => hs⟩
      · change sndUna ≤ sndNxt - 1
        omega
      · change sb.fackOut + (sndNxt - sndUna) = _
        rw [hc.fackOut, packets_cons, if_pos rfl, getLength_eq]
        change 0 + _ = sndNxt - 1 + 1 - sndUna + 0
        omega
    · exact ⟨_, rfl, rfl, rfl, fun _ => hn, a, b, hlt,
        ⟨hc.tiles, hc.sackOut, hc.fackOut, hc.addressed⟩, fun h => absurd hn h,
        fun _ h => absurd rfl h⟩
  | cons head rest =>
    rw [hn] at hc
    have he : Cursor.Entered ⟨{ sb.toScoreBoard1Fields with nxtToRetrx := none }, [], head, rest⟩
        a b := ⟨⟨hc.tiles, hc.sackOut, hc.fackOut, hc.addressed⟩, rfl⟩
    obtain ⟨c, hok, hfack, b', hb', hs, hf⟩ := markLossLoop_sound sndNxt (k := rest.length + 2) he
      (fun hl => absurd hl Bool.false_ne_true) (by
        change rest.length + _ ≤ _
        split_ifs <;> omega)
    dsimp only
    rw [hok]
    refine ⟨_, rfl, hfack, hf, fun h => ?_, a, b', hlt,
      ⟨hs.tiles, hs.sackOut, hs.fackOut, hs.addressed⟩, fun _ => hb', fun h => ?_⟩
    · exact absurd h (by simp [Cursor.toBoard, Cursor.nodes])
    · exact absurd (hn.symm.trans h) (List.cons_ne_nil _ _)

theorem markLoss_good {sndUna sndNxt : ℤ} (h : sb.Good lastAck) (hu : lastAck < sndUna) :
    ∃ sb', sb.markLoss sndUna sndNxt = .ok sb' ∧ sb'.Good lastAck := by
  obtain ⟨⟨a, b, hlt, hc⟩, -⟩ := h
  obtain ⟨sb', hok, hm⟩ := markLoss_marked sndNxt hc hlt hu
  obtain ⟨a', b', hlt', hc', -⟩ := hm.counted
  exact ⟨sb', hok, ⟨a', b', hlt', hc'⟩, hm.firstLost.points (List.Subset.refl _)⟩

/-- The nodes before and behind an address. -/
theorem nodesFrom_of_eq {pre post : List ScoreBoardNode1} (h : Addressed sb.fresh sb.nodes)
    (he : sb.nodes = pre ++ n :: post) :
    sb.nodesFrom n.addr = n :: post ∧
      (sb.nodes.takeWhile fun m => m.addr ≠ n.addr) = pre := by
  have hnodup := h.nodup
  rw [he, List.map_append, List.map_cons, List.nodup_middle, List.nodup_cons] at hnodup
  have hpre : ∀ m ∈ pre, decide (m.addr ≠ n.addr) = true := fun m hm =>
    decide_eq_true fun hmn => hnodup.1 (List.mem_append_left _ (List.mem_map.mpr ⟨m, hm, hmn⟩))
  refine ⟨?_, ?_⟩
  · rw [nodesFrom, he, List.dropWhile_append_of_pos hpre, List.dropWhile_cons_of_neg (by simp)]
  · rw [he, List.takeWhile_append_of_pos hpre, List.takeWhile_cons_of_neg (by simp),
      List.append_nil]

theorem nodesFrom_eq (h : Addressed sb.fresh sb.nodes) (hn : n ∈ sb.nodes) :
    ∃ pre post, sb.nodes = pre ++ n :: post ∧ sb.nodesFrom n.addr = n :: post ∧
      (sb.nodes.takeWhile fun m => m.addr ≠ n.addr) = pre := by
  obtain ⟨pre, post, he⟩ := List.append_of_mem hn
  exact ⟨pre, post, he, nodesFrom_of_eq h he⟩

/-- The recommended node is a lost one. -/
theorem getNextRetran_good (h : sb.Good lastAck) :
    ∃ sb' q, sb.getNextRetran = .ok (sb', q) ∧ sb'.Good lastAck ∧ (q ≠ -1 →
      ∃ n ∈ sb'.nodes, sb'.nxtToRetrx = some n.addr ∧ n.flag = .lost ∧ n.seq = q) := by
  obtain ⟨⟨a, b, hlt, hc⟩, hp⟩ := h
  rw [getNextRetran]
  cases ha : sb.nxtToRetrx with
  | none => exact ⟨sb, -1, rfl, ⟨⟨a, b, hlt, hc⟩, hp⟩, by simp⟩
  | some addr =>
    obtain ⟨m, hm, rfl⟩ := hp addr ha
    obtain ⟨-, post, -, hfrom, -⟩ := nodesFrom_eq hc.addressed hm
    have hne : sb.nodesFrom m.addr ≠ [] := by simp [hfrom]
    dsimp only
    rw [if_neg hne]
    cases hf : (sb.nodesFrom m.addr).find? fun n => n.flag = .lost with
    | none =>
      exact ⟨_, -1, rfl, ⟨⟨a, b, hlt, hc.tiles, hc.sackOut, hc.fackOut, hc.addressed⟩,
        fun addr ha => absurd ha (by simp)⟩, by simp⟩
    | some n =>
      have hn : n ∈ sb.nodes := List.dropWhile_subset _ (List.mem_of_find?_eq_some hf)
      exact ⟨_, _, rfl, ⟨⟨a, b, hlt, hc.tiles, hc.sackOut, hc.fackOut, hc.addressed⟩,
        fun addr ha => ⟨n, hn, Option.some.inj ha⟩⟩,
        fun _ => ⟨n, hn, rfl, by simpa using List.find?_some hf, rfl⟩⟩

/-- A lost packet is retransmitted. -/
theorem retransmit_counted {f' : ScoreBoard1Fields} (sndNxt rtxId : ℤ) (h : c.Sound a b)
    (hl : c.now.flag = .lost) (hone : c.now.nxt = c.now.seq) (hfresh : c.fresh ≤ f'.fresh)
    (hs : f'.sackOut = c.sackOut) (hf : f'.fackOut = c.fackOut - 1) :
    Counted f' a (c.before.reverse ++
      { c.now with flag := .retransmitted, nxt := sndNxt, retran := rtxId } :: c.rest) b := by
  have hend : c.now.getEnd = c.now.seq := (getEnd_of_ne (by simp [hl])).trans hone
  have hlen : c.now.getLength = 1 := by rw [getLength_eq, hend]; omega
  refine h.relabel hfresh rfl rfl hend.symm ?_ ?_
  · simp [hl, hs]
  · simp only [packets_cons, packets_nil, if_pos hl, hlen, hf, reduceCtorEq, if_false]
    omega

/-- The first packet of a lost node is split off and retransmitted. -/
theorem retransmitNode_counted {pre post : List ScoreBoardNode1} {f' : ScoreBoard1Fields}
    {sndNxt rtxId : ℤ} (h : Counted f a (pre ++ n :: post) b) (hl : n.flag = .lost)
    (hfresh : f'.fresh = f.fresh + 1) (hs : f'.sackOut = f.sackOut)
    (hf : f'.fackOut = f.fackOut - 1) :
    Counted f' a (pre ++ retransmitNode n f.fresh sndNxt rtxId ++ post) b := by
  have hc : Cursor.Sound ⟨f, pre.reverse, n, post⟩ a b := by
    rw [Cursor.Sound, Cursor.nodes, List.reverse_reverse]
    exact h
  have hr : n.flag ≠ .retransmitted := by simp [hl]
  have hle := (tiles_middle.mp h.tiles).2.1
  rw [getEnd_of_ne hr] at hle
  rw [retransmitNode]
  split_ifs with hlt
  · have hnew := retransmit_counted sndNxt rtxId
      (hc.split (s := n.seq + 1) hr (lt_add_one _) (by rw [getEnd_of_ne hr]; exact hlt)) hl
      (add_sub_cancel_right _ _) hfresh.ge hs hf
    simpa [Cursor.split] using hnew
  · have hnew := retransmit_counted sndNxt rtxId hc hl
      (le_antisymm (not_lt.mp hlt) hle) (hfresh ▸ Nat.le_succ _) hs hf
    simpa using hnew

/-- The recommended node is retransmitted at its place. -/
theorem markRetran_at {s : ScoreBoard1} {pre post : List ScoreBoardNode1} (sndNxt : ℤ)
    (hc : Counted s.toScoreBoard1Fields a s.nodes b) (hnodes : s.nodes = pre ++ n :: post)
    (hp : s.nxtToRetrx = some n.addr) (hl : n.flag = .lost) :
    ∃ sb', s.markRetran n.seq sndNxt = .ok sb' ∧ sb'.fack = s.fack ∧
      sb'.nxtToRetrx = some n.addr ∧ Counted sb'.toScoreBoard1Fields a sb'.nodes b ∧
      ∃ m ms, sb'.nodes = pre ++ m :: ms ∧ m.addr = n.addr := by
  obtain ⟨hfrom, hpre⟩ := nodesFrom_of_eq hc.addressed hnodes
  rw [hnodes] at hc
  have hr : n.flag ≠ .retransmitted := by simp [hl]
  obtain ⟨htpre, hle, htpost⟩ := tiles_middle.mp hc.tiles
  have hin : n.Inside n.seq := by
    rw [Inside, if_neg hr]
    exact ⟨le_rfl, (getEnd_of_ne hr) ▸ hle⟩
  have hfack : ¬ s.fackOut - 1 < 0 := by
    have hpos := hc.fackOut
    rw [packets_append, packets_cons, if_pos hl, getLength_eq] at hpos
    have := packets_nonneg .lost htpre
    have := packets_nonneg .lost htpost
    omega
  rw [markRetran, hp]
  dsimp only
  rw [hfrom]
  dsimp only
  rw [if_neg (not_not.mpr hin), if_neg hfack, hpre]
  refine ⟨_, rfl, rfl, rfl, retransmitNode_counted hc hl rfl rfl rfl, ?_⟩
  obtain ⟨m, ms, he, hm⟩ : ∃ m ms, retransmitNode n s.fresh sndNxt s.rtxId = m :: ms ∧
      m.addr = n.addr := by
    rw [retransmitNode]
    split_ifs
    · exact ⟨_, _, rfl, rfl⟩
    · exact ⟨_, _, rfl, rfl⟩
  exact ⟨m, ms ++ post, by rw [he]; simp, hm⟩

theorem markRetran_good {sndNxt : ℤ} (h : sb.Good lastAck) (hn : n ∈ sb.nodes)
    (hp : sb.nxtToRetrx = some n.addr) (hl : n.flag = .lost) :
    ∃ sb', sb.markRetran n.seq sndNxt = .ok sb' ∧ sb'.Good lastAck := by
  obtain ⟨⟨a, b, hlt, hc⟩, -⟩ := h
  obtain ⟨pre, post, hnodes⟩ := List.append_of_mem hn
  obtain ⟨sb', hok, -, hp', hc', m, ms, hnodes', hm⟩ := markRetran_at sndNxt hc hnodes hp hl
  refine ⟨sb', hok, ⟨a, b, hlt, hc'⟩, fun addr ha => ⟨m, ?_, ?_⟩⟩
  · rw [hnodes']
    exact List.mem_append_right _ List.mem_cons_self
  · exact hm.trans (Option.some.inj (hp'.symm.trans ha))

end ScoreBoard1

/-- The members of a new board. -/
def newScoreBoard1 : ScoreBoard1 where
  fresh := 0
  nxtToRetrx := none
  ackedRtxId := -1
  rtxId := 0
  fack := 0
  fackOut := 0
  sackOut := 0
  lastRtxSeq := -1
  nodes := []

namespace ScoreBoard1Call

/-- Cumulative ACKs do not decrease, and `MarkLoss` is called with packets that are not acked. -/
def Legal (p : ScoreBoard1 × ℤ) : ScoreBoard1Call → Prop
  | .updateScoreBoard lastAck _ _ => p.2 ≤ lastAck
  | .markLoss sndUna _ => p.2 < sndUna
  | _ => True

instance (p : ScoreBoard1 × ℤ) : (c : ScoreBoard1Call) → Decidable (Legal p c)
  | .updateScoreBoard lastAck _ _ => inferInstanceAs (Decidable (p.2 ≤ lastAck))
  | .retransmit _ => inferInstanceAs (Decidable True)
  | .markLoss sndUna _ => inferInstanceAs (Decidable (p.2 < sndUna))
  | .clearScoreBoard => inferInstanceAs (Decidable True)

/-- A call that opens a new board opens it above the ACK. -/
def OpensAbove (p : ScoreBoard1 × ℤ) : ScoreBoard1Call → Prop
  | .updateScoreBoard lastAck blocks _ => p.1.OpensAbove lastAck blocks
  | _ => True

instance (p : ScoreBoard1 × ℤ) : (c : ScoreBoard1Call) → Decidable (OpensAbove p c)
  | .updateScoreBoard lastAck blocks _ => inferInstanceAs (Decidable
      ((∀ n ∈ p.1.nodes, n.getEnd ≤ lastAck) →
        ∀ s ∈ (ScoreBoard1.filterSacks lastAck blocks).head?, lastAck < 0 ∨ lastAck + 1 < s.2))
  | .retransmit _ => inferInstanceAs (Decidable True)
  | .markLoss _ _ => inferInstanceAs (Decidable True)
  | .clearScoreBoard => inferInstanceAs (Decidable True)

/-- The last cumulative ACK behind a call. -/
def ackAfter : ScoreBoard1Call → ℤ → ℤ
  | .updateScoreBoard lastAck _ _, _ => lastAck
  | _, acked => acked

theorem run_good {p : ScoreBoard1 × ℤ} {c : ScoreBoard1Call} (h : p.1.Good p.2) (hl : Legal p c)
    (ho : OpensAbove p c) : ∃ sb, c.run p.1 = .ok sb ∧ sb.Good (c.ackAfter p.2) := by
  cases c with
  | updateScoreBoard lastAck blocks dupackThreshold =>
    obtain ⟨r, hok, hg⟩ := ScoreBoard1.updateScoreBoard_good dupackThreshold h ho
    exact ⟨r.1, by rw [run, hok]; rfl, hg⟩
  | retransmit sndNxt =>
    obtain ⟨sb', q, hok, hg, hq⟩ := ScoreBoard1.getNextRetran_good h
    rw [run, hok]
    change ∃ sb, (if q = -1 then _ else _) = _ ∧ _
    split_ifs with hc
    · exact ⟨sb', rfl, hg⟩
    · obtain ⟨n, hn, hp, hf, rfl⟩ := hq hc
      exact ScoreBoard1.markRetran_good hg hn hp hf
  | markLoss sndUna sndNxt => exact ScoreBoard1.markLoss_good h hl
  | clearScoreBoard => exact ⟨_, rfl, ScoreBoard1.clearScoreBoard_good p.1 p.2⟩

end ScoreBoard1Call

/-- The calls of a sender in any order, beside the last cumulative ACK. -/
def linuxScoring (acked : ℤ) : Machine (ScoreBoard1 × ℤ) ScoreBoard1Call ScoreBoard1Error where
  Init p := p = (newScoreBoard1, acked)
  Enabled := ScoreBoard1Call.Legal
  step p c := (c.run p.1).map fun sb => (sb, c.ackAfter p.2)

theorem linuxScoring_invariant {acked : ℤ} :
    ((linuxScoring acked).restrict ScoreBoard1Call.OpensAbove).Invariant fun p => p.1.Good p.2 where
  init p hi := by
    obtain rfl : p = (newScoreBoard1, acked) := hi
    exact ScoreBoard1.clearScoreBoard_good newScoreBoard1 acked
  step p c p' h he hs := by
    obtain ⟨sb, hok, hg⟩ := ScoreBoard1Call.run_good h he.1 he.2
    change (c.run p.1).map _ = _ at hs
    rw [hok] at hs
    obtain rfl := Except.ok.inj hs
    exact hg

instance {acked : ℤ} (p : ScoreBoard1 × ℤ) (c : ScoreBoard1Call) :
    Decidable ((linuxScoring acked).Enabled p c) :=
  inferInstanceAs (Decidable (ScoreBoard1Call.Legal p c))

end Ns2XPass
