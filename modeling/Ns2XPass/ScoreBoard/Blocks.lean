import Mathlib.Algebra.Order.BigOperators.Group.List
import Ns2XPass.Library.Except
import Ns2XPass.Library.Machine
import Ns2XPass.Library.Tiling
import Ns2XPass.ScoreBoard.Linux

/-! # The blocks of the scoreboard of TCP-Linux

The nodes tile an interval above the last cumulative ACK, and the counters
count the packets of the SACKed and the lost nodes. In a pass, the pointer to
the next retransmission is the first lost node that has been visited.
-/

namespace Ns2XPass

variable {n n' prev : ScoreBoardNode1} {pre post ns ms : List ScoreBoardNode1} {flag : SkbFlag}
  {fresh : ℕ} {a b s lastAck : ℤ}

namespace ScoreBoardNode1

theorem getLength_eq : n.getLength = n.getEnd + 1 - n.seq := by
  rw [getLength, getEnd]
  split_ifs
  · omega
  · rfl

theorem getEnd_of_ne (h : n.flag ≠ .retransmitted) : n.getEnd = n.nxt := if_neg h

@[simp] theorem getEnd_setFlag (h : flag ≠ .retransmitted) : (n.setFlag flag).getEnd = n.getEnd :=
  if_neg h

/-- The number of packets in the nodes of a state. -/
def packets (flag : SkbFlag) (ns : List ScoreBoardNode1) : ℤ :=
  (ns.map fun n => if n.flag = flag then n.getLength else 0).sum

@[simp] theorem packets_nil : packets flag [] = 0 := rfl

@[simp] theorem packets_cons :
    packets flag (n :: ns) = (if n.flag = flag then n.getLength else 0) + packets flag ns := by
  rw [packets, List.map_cons, List.sum_cons, packets]

@[simp] theorem packets_append : packets flag (ns ++ ms) = packets flag ns + packets flag ms := by
  rw [packets, List.map_append, List.sum_append, packets, packets]

end ScoreBoardNode1

open ScoreBoardNode1

/-- The nodes tile an interval, from its first packet on. -/
abbrev Blocks (a : ℤ) (ns : List ScoreBoardNode1) (b : ℤ) : Prop :=
  Tiles ScoreBoardNode1.seq getEnd a ns b

theorem packets_nonneg (flag : SkbFlag) (h : Blocks a ns b) : 0 ≤ packets flag ns := by
  refine List.sum_nonneg fun x hx => ?_
  obtain ⟨n, hn, rfl⟩ := List.mem_map.mp hx
  obtain ⟨-, hle, -⟩ := h.bounds hn
  split_ifs
  · rw [getLength_eq]
    omega
  · rfl

/-- The addresses are different, and less than the next one. -/
structure Addressed (fresh : ℕ) (ns : List ScoreBoardNode1) : Prop where
  below : ∀ n ∈ ns, n.addr < fresh
  nodup : (ns.map (·.addr)).Nodup

theorem Addressed.sublist (h : Addressed fresh ns)
    (hs : (ms.map (·.addr)).Sublist (ns.map (·.addr))) : Addressed fresh ms where
  below m hm := by
    obtain ⟨n, hn, he⟩ := List.mem_map.mp (hs.subset (List.mem_map_of_mem hm))
    exact he ▸ h.below n hn
  nodup := h.nodup.sublist hs

theorem Addressed.congr (h : Addressed fresh ns) (he : ms.map (·.addr) = ns.map (·.addr)) :
    Addressed fresh ms :=
  h.sublist (he ▸ List.Sublist.refl _)

theorem Addressed.mono (h : Addressed fresh ns) {fresh' : ℕ} (hle : fresh ≤ fresh') :
    Addressed fresh' ns :=
  ⟨fun n hn => (h.below n hn).trans_le hle, h.nodup⟩

theorem Addressed.insert (h : Addressed fresh (pre ++ post)) (hn : n.addr = fresh) :
    Addressed (fresh + 1) (pre ++ n :: post) where
  below m hm := by
    rcases List.mem_append.mp hm with hm | hm
    · exact Nat.lt_succ_of_lt (h.below m (List.mem_append_left _ hm))
    · rcases List.mem_cons.mp hm with rfl | hm
      · exact hn ▸ Nat.lt_succ_self _
      · exact Nat.lt_succ_of_lt (h.below m (List.mem_append_right _ hm))
  nodup := by
    rw [List.map_append, List.map_cons, List.nodup_middle, ← List.map_append]
    refine List.nodup_cons.mpr ⟨fun hm => ?_, h.nodup⟩
    obtain ⟨m, hm, he⟩ := List.mem_map.mp hm
    have := h.below m hm
    omega

/-- The nodes tile the interval, and the counters count their packets. -/
structure Counted (f : ScoreBoard1Fields) (a : ℤ) (ns : List ScoreBoardNode1) (b : ℤ) : Prop where
  tiles : Blocks a ns b
  sackOut : f.sackOut = packets .sacked ns
  fackOut : f.fackOut = packets .lost ns
  addressed : Addressed f.fresh ns

/-- The pointer is `NULL` or points to a node. -/
def Points (f : ScoreBoard1Fields) (ns : List ScoreBoardNode1) : Prop :=
  ∀ addr, f.nxtToRetrx = some addr → ∃ n ∈ ns, n.addr = addr

/-- The pointer points to the first lost node, if any. -/
def FirstLost (f : ScoreBoard1Fields) (ns : List ScoreBoardNode1) : Prop :=
  f.nxtToRetrx = (ns.find? fun n => n.flag = .lost).map (·.addr)

theorem FirstLost.points {f : ScoreBoard1Fields} (h : FirstLost f ns) (hs : ns ⊆ ms) :
    Points f ms := fun addr hp => by
  rw [h] at hp
  obtain ⟨n, hn, he⟩ := Option.map_eq_some_iff.mp hp
  exact ⟨n, hs (List.mem_of_find?_eq_some hn), he⟩

theorem firstLost_concat {f : ScoreBoard1Fields} :
    FirstLost f (ns ++ [n]) ↔ f.nxtToRetrx = ((ns.find? fun n => n.flag = .lost).map (·.addr) <|>
      if n.flag = .lost then some n.addr else none) := by
  rw [FirstLost, List.find?_append]
  cases hf : ns.find? fun n => n.flag = .lost with
  | some m => rfl
  | none =>
    by_cases hn : n.flag = .lost
    · simp [hn]
    · simp [hn]

namespace Cursor

variable {c : Cursor}

/-- The nodes around the cursor are counted. -/
abbrev Sound (c : Cursor) (a b : ℤ) : Prop := Counted c.toScoreBoard1Fields a c.nodes b

/-- Replace the node, when another state gives it other packets to count. -/
theorem Sound.relabel (h : c.Sound a b) {f : ScoreBoard1Fields} (hf : c.fresh ≤ f.fresh)
    (haddr : n.addr = c.now.addr) (hseq : n.seq = c.now.seq) (hend : n.getEnd = c.now.getEnd)
    (hs : f.sackOut + packets .sacked [c.now] = c.sackOut + packets .sacked [n])
    (hl : f.fackOut + packets .lost [c.now] = c.fackOut + packets .lost [n]) :
    Counted f a (c.before.reverse ++ n :: c.rest) b := by
  obtain ⟨hpre, hle, hpost⟩ := tiles_middle.mp h.tiles
  have hsack := h.sackOut
  have hlost := h.fackOut
  rw [nodes, packets_append, packets_cons] at hsack hlost
  refine ⟨tiles_middle.mpr ⟨hseq ▸ hpre, by rw [hseq, hend]; exact hle, hend ▸ hpost⟩, ?_, ?_, ?_⟩
  · rw [packets_append, packets_cons]
    simp only [packets_cons, packets_nil] at hs
    omega
  · rw [packets_append, packets_cons]
    simp only [packets_cons, packets_nil] at hl
    omega
  · exact (h.addressed.congr (by simp [nodes, haddr])).mono hf

theorem Sound.split (h : c.Sound a b) (hr : c.now.flag ≠ .retransmitted) (hlt : c.now.seq < s)
    (hle : s ≤ c.now.getEnd) : (c.split s).Sound a b := by
  obtain ⟨hpre, -, hpost⟩ := tiles_middle.mp h.tiles
  have hend := getEnd_of_ne hr
  rw [hend] at hle hpost
  have hle₁ : (c.now.splitLeft s).getEnd = s - 1 := if_neg hr
  have hle₂ : (c.now.splitRight c.fresh s).getEnd = c.now.nxt := if_neg hr
  have hpackets : ∀ flag, packets flag [c.now.splitLeft s, c.now.splitRight c.fresh s] =
      packets flag [c.now] := fun flag => by
    simp only [packets_cons, packets_nil, getLength_eq, hle₁, hle₂, hend]
    change (if c.now.flag = flag then s - 1 + 1 - c.now.seq else 0) +
      ((if c.now.flag = flag then c.now.nxt + 1 - s else 0) + 0) = _
    split_ifs
    · omega
    · rfl
  have hnodes : (c.split s).nodes = c.before.reverse ++
      [c.now.splitLeft s, c.now.splitRight c.fresh s] ++ c.rest := by
    simp [nodes, Cursor.split]
  have hold : c.nodes = c.before.reverse ++ [c.now] ++ c.rest := by simp [nodes]
  rw [Sound, hnodes]
  refine ⟨?_, ?_, ?_, ?_⟩
  · rw [List.append_assoc]
    refine tiles_middle.mpr ⟨hpre, ?_, ?_, ?_, ?_⟩
    · rw [hle₁]
      change c.now.seq ≤ s - 1
      omega
    · rw [hle₁]
      exact (sub_add_cancel s 1).symm
    · rw [hle₂]
      exact hle
    · rw [hle₂]
      exact hpost
  · rw [packets_append, packets_append, hpackets, ← packets_append, ← packets_append, ← hold]
    exact h.sackOut
  · rw [packets_append, packets_append, hpackets, ← packets_append, ← packets_append, ← hold]
    exact h.fackOut
  · rw [List.append_assoc]
    have hsub : Addressed c.fresh ((c.before.reverse ++ [c.now.splitLeft s]) ++ c.rest) :=
      h.addressed.congr (by simp [nodes, splitLeft])
    have hins := hsub.insert (n := c.now.splitRight c.fresh s) rfl
    rwa [List.append_assoc] at hins

/-- The previous node may take the packets of the node over. -/
theorem Sound.merge (h : c.Sound a b) {before : List ScoreBoardNode1}
    (hb : c.before = prev :: before) (hr : c.now.flag ≠ .retransmitted)
    (hflag : c.now.flag = prev.flag) :
    (c.merge prev before).Sound a b := by
  have hold : c.nodes = before.reverse ++ prev :: c.now :: c.rest := by simp [nodes, hb]
  have hr' : prev.flag ≠ .retransmitted := hflag ▸ hr
  obtain ⟨htiles, hsack, hlost, haddr⟩ := h
  rw [hold] at htiles hsack hlost haddr
  obtain ⟨hpre, hle, hseq, hle', hpost⟩ := tiles_middle.mp htiles
  have hend : (prev.merge c.now).getEnd = c.now.getEnd := by
    rw [getEnd_of_ne hr]
    exact if_neg hr'
  have hpackets : ∀ flag, packets flag [prev.merge c.now] = packets flag [prev, c.now] :=
    fun flag => by
      simp only [packets_cons, packets_nil, getLength_eq, hend, hflag]
      change (if prev.flag = flag then c.now.getEnd + 1 - prev.seq else 0) + 0 = _
      split_ifs
      · omega
      · rfl
  change Counted _ a (before.reverse ++ prev.merge c.now :: c.rest) b
  refine ⟨tiles_middle.mpr ⟨hpre, ?_, hend ▸ hpost⟩, ?_, ?_, haddr.sublist ?_⟩
  · rw [hend]
    change prev.seq ≤ _
    omega
  · have he := hpackets .sacked
    simp only [packets_append, packets_cons, packets_nil] at he hsack ⊢
    change c.sackOut = _
    omega
  · have he := hpackets .lost
    simp only [packets_append, packets_cons, packets_nil] at he hlost ⊢
    change c.fackOut = _
    omega
  · simp only [List.map_append, List.map_cons]
    exact (List.Sublist.refl _).append ((List.sublist_cons_self _ _).cons_cons _)

theorem Sound.append (h : c.Sound a b) (hrest : c.rest = []) {e : ℤ} (he : c.now.getEnd < e) :
    (c.append (c.now.getEnd + 1) e).Sound a (e + 1) := by
  obtain ⟨hpre, hle, hpost⟩ := tiles_middle.mp h.tiles
  have hold : c.nodes = c.before.reverse ++ [c.now] := by rw [nodes, hrest]
  have hnodes : (c.append (c.now.getEnd + 1) e).nodes = c.nodes ++
      [⟨c.fresh, .inflight, c.now.getEnd + 1, e, 0⟩] := by simp [nodes, Cursor.append, hrest]
  rw [Sound, hnodes]
  refine ⟨?_, ?_, ?_, ?_⟩
  · rw [hold, List.append_assoc]
    exact tiles_middle.mpr ⟨hpre, hle, rfl, he, rfl⟩
  · rw [packets_append]
    exact h.sackOut.trans (add_zero _).symm
  · rw [packets_append]
    exact h.fackOut.trans (add_zero _).symm
  · have hadd : Addressed c.fresh (c.nodes ++ []) := by rw [List.append_nil]; exact h.addressed
    exact hadd.insert rfl

/-- A cursor before its node is processed. -/
structure Entered (c : Cursor) (a b : ℤ) : Prop where
  sound : c.Sound a b
  firstLost : FirstLost c.toScoreBoard1Fields c.before.reverse

/-- A cursor whose node has been processed. -/
structure Visited (c : Cursor) (a b : ℤ) : Prop where
  sound : c.Sound a b
  firstLost : FirstLost c.toScoreBoard1Fields (c.before.reverse ++ [c.now])

theorem Entered.le (h : c.Entered a b) : c.now.seq ≤ c.now.getEnd :=
  (tiles_middle.mp h.sound.tiles).2.1

theorem Entered.visited (h : c.Entered a b) (hne : c.now.flag ≠ .lost) : c.Visited a b where
  sound := h.sound
  firstLost := by
    rw [firstLost_concat, if_neg hne, ← h.firstLost]
    cases c.nxtToRetrx <;> rfl

theorem Entered.visited_of_lost (h : c.Entered a b) {before : List ScoreBoardNode1}
    (hb : c.before = prev :: before) (hl : prev.flag = .lost) : c.Visited a b where
  sound := h.sound
  firstLost := by
    have hsome : (c.before.reverse.find? fun n => n.flag = .lost).isSome :=
      List.find?_isSome.mpr ⟨prev, by simp [hb], by simp [hl]⟩
    obtain ⟨m, hm⟩ := Option.isSome_iff_exists.mp hsome
    rw [firstLost_concat, h.firstLost, hm]
    rfl

theorem Entered.recommend (h : c.Entered a b) (hl : c.now.flag = .lost) :
    c.recommend.Visited a b where
  sound := ⟨h.sound.tiles, h.sound.sackOut, h.sound.fackOut, h.sound.addressed⟩
  firstLost := by
    refine firstLost_concat.mpr ?_
    change (c.nxtToRetrx <|> some c.now.addr) = (_ <|> if c.now.flag = .lost then _ else _)
    rw [if_pos hl, h.firstLost]
    rfl

theorem Entered.split (h : c.Entered a b) (hr : c.now.flag ≠ .retransmitted) (hlt : c.now.seq < s)
    (hle : s ≤ c.now.getEnd) : (c.split s).Entered a b :=
  ⟨h.sound.split hr hlt hle, h.firstLost⟩

/-- The first lost node stays, when the node behind it is merged into it. -/
theorem Visited.merge (h : c.Visited a b) {before : List ScoreBoardNode1}
    (hb : c.before = prev :: before) (hr : c.now.flag ≠ .retransmitted)
    (hflag : c.now.flag = prev.flag) : (c.merge prev before).Visited a b where
  sound := h.sound.merge hb hr hflag
  firstLost := by
    have hf := h.firstLost
    rw [hb, List.reverse_cons, List.append_assoc, FirstLost, List.find?_append] at hf
    refine firstLost_concat.mpr (hf.trans ?_)
    change _ = ((before.reverse.find? fun n => n.flag = .lost).map (·.addr) <|>
      if prev.flag = .lost then some prev.addr else none)
    cases (before.reverse.find? fun n => n.flag = .lost) with
    | some m => rfl
    | none =>
      by_cases hl : prev.flag = .lost
      · simp [hl]
      · simp [hl, hflag]

theorem Visited.append (h : c.Visited a b) (hrest : c.rest = []) {e : ℤ} (he : c.now.getEnd < e) :
    (c.append (c.now.getEnd + 1) e).Visited a (e + 1) :=
  ⟨h.sound.append hrest he, h.firstLost⟩

theorem next_eq {c' : Cursor} (hn : c.next = some c') :
    c'.before = c.now :: c.before ∧ c.rest = c'.now :: c'.rest := by
  rw [Cursor.next] at hn
  cases hr : c.rest with
  | nil => rw [hr] at hn; exact absurd hn (by simp)
  | cons n rest => rw [hr] at hn; obtain rfl := Option.some.inj hn; exact ⟨rfl, rfl⟩

/-- The pass goes on with the next node. -/
theorem Visited.next (h : c.Visited a b) {c' : Cursor} (hn : c.next = some c') :
    c'.Entered a b ∧ c'.now.seq = c.now.getEnd + 1 ∧ c'.fack = c.fack := by
  obtain ⟨-, -, hpost⟩ := tiles_middle.mp h.sound.tiles
  obtain ⟨hs, hf⟩ := h
  rw [Cursor.next] at hn
  cases hr : c.rest with
  | nil => rw [hr] at hn; exact absurd hn (by simp)
  | cons n rest =>
    rw [hr] at hn hpost
    obtain rfl := Option.some.inj hn
    have hnodes : c.nodes = (c.now :: c.before).reverse ++ n :: rest := by simp [nodes, hr]
    rw [Sound, hnodes] at hs
    exact ⟨⟨hs, by rw [List.reverse_cons]; exact hf⟩, hpost.1, rfl⟩

end Cursor

namespace Traversal

variable {t : Traversal}

/-- What the processing of `now` leaves unchanged. -/
structure Same (t t' : Traversal) : Prop where
  seq : t'.now.seq = t.now.seq
  fack : t'.fack = t.fack

theorem sack_entered (h : t.Entered a b) (hne : t.now.flag ≠ .sacked) :
    t.sack.Entered a b ∧ Same t t.sack ∧ t.sack.now.flag = .sacked := by
  have hend : (t.now.setFlag .sacked).getEnd = t.now.getEnd := getEnd_setFlag (by simp)
  have hlen : (t.now.setFlag .sacked).getLength = t.now.getLength := by
    rw [getLength_eq, getLength_eq, hend]
    rfl
  have hpackets : ∀ flag, packets flag [t.now.setFlag .sacked] =
      if flag = .sacked then t.now.getLength else 0 := fun flag => by
    rw [packets_cons, packets_nil, hlen, add_zero]
    exact if_congr eq_comm rfl rfl
  rw [sack]
  cases hf : t.now.flag with
  | sacked => exact absurd hf hne
  | inflight =>
    refine ⟨⟨h.sound.relabel le_rfl rfl rfl hend ?_ ?_, h.firstLost⟩, ⟨rfl, rfl⟩, rfl⟩
    · simp [hpackets, hf]
    · simp [hpackets, hf]
  | lost =>
    refine ⟨⟨h.sound.relabel le_rfl rfl rfl hend ?_ ?_, h.firstLost⟩, ⟨rfl, rfl⟩, rfl⟩
    · simp [hpackets, hf]
    · simp [hpackets, hf]
  | retransmitted =>
    refine ⟨⟨h.sound.relabel le_rfl rfl rfl hend ?_ ?_, h.firstLost⟩, ⟨rfl, rfl⟩, rfl⟩
    · simp [hpackets, hf]
    · simp [hpackets, hf]

theorem lose_visited (h : t.Entered a b) (hs : t.now.flag ≠ .sacked) (hl : t.now.flag ≠ .lost) :
    t.lose.Visited a b ∧ Same t t.lose := by
  have hend : (t.now.setFlag .lost).getEnd = t.now.getEnd := getEnd_setFlag (by simp)
  have he : Cursor.Entered { t.toCursor with
      now := t.now.setFlag .lost, fackOut := t.fackOut + (t.now.setFlag .lost).getLength } a b := by
    refine ⟨h.sound.relabel le_rfl rfl rfl hend ?_ ?_, h.firstLost⟩
    · simp only [packets_cons, packets_nil, if_neg hs]
      rfl
    · simp only [packets_cons, packets_nil, if_neg hl]
      change t.fackOut + _ + (0 + 0) = _ + ((if SkbFlag.lost = .lost then _ else 0) + 0)
      rw [if_pos rfl, add_zero, add_zero, add_zero]
  exact ⟨he.recommend rfl, rfl, rfl⟩

theorem cover_entered (h : t.Entered a b) (hne : t.now.flag ≠ .sacked)
    (hr : ∀ s ∈ t.sacks.head?, t.now.seq < s.2) :
    t.cover.Entered a b ∧ Same t t.cover ∧
      (t.cover.uncovered = false → t.cover.now.flag = .sacked) := by
  rw [cover]
  cases hs : t.sacks with
  | nil => exact ⟨h, ⟨rfl, rfl⟩, fun hu => absurd hu (by simp [uncovered, hs])⟩
  | cons s sacks =>
    obtain ⟨left, right⟩ := s
    have hright : t.now.seq < right := hr _ (by rw [hs]; rfl)
    have hsplit : ∀ {s}, t.now.seq < s → s ≤ t.now.getEnd → t.now.flag ≠ .retransmitted :=
      fun hlt hle hf => (hlt.trans_le hle).ne (if_pos hf).symm
    dsimp only
    split_ifs with hle hlt hin
    · refine ⟨h.split (hsplit hlt hle) hlt hle, ⟨rfl, rfl⟩, fun hu => absurd hu ?_⟩
      have hend : (t.now.splitLeft left).getEnd = left - 1 := if_neg (hsplit hlt hle)
      change decide ((t.now.splitLeft left).getEnd < left) ≠ false
      rw [hend]
      simp
    · obtain ⟨he, hsame, hf⟩ := sack_entered
        (t := { t with toCursor := t.toCursor.split right, sacks := (left, right) :: sacks })
        (h.split (hsplit hright hin) hright hin) hne
      exact ⟨he, ⟨hsame.seq, hsame.fack⟩, fun _ => hf⟩
    · obtain ⟨he, hsame, hf⟩ := sack_entered h hne
      exact ⟨he, hsame, fun _ => hf⟩
    · exact ⟨h, ⟨rfl, rfl⟩, fun hu => absurd hu (by simp [uncovered, hs, not_le.mp hle])⟩

theorem check_visited (dupackThreshold : ℤ) (h : t.Entered a b) :
    (t.check dupackThreshold).Visited a b ∧ Same t (t.check dupackThreshold) := by
  rw [check]
  dsimp only
  cases hf : t.now.flag with
  | sacked => exact ⟨h.visited (by simp [hf]), rfl, rfl⟩
  | lost => exact ⟨h.recommend hf, rfl, rfl⟩
  | retransmitted =>
    dsimp only
    split_ifs
    · exact lose_visited h (by simp [hf]) (by simp [hf])
    · exact ⟨h.visited (by simp [hf]), rfl, rfl⟩
  | inflight =>
    dsimp only
    split_ifs with hle hlt
    · obtain ⟨hv, hsame⟩ := lose_visited
        (t := { t with toCursor := t.toCursor.split (t.fack - (dupackThreshold + 1) + 1) })
        (h.split (by simp [hf]) (by omega) (by omega))
        (by change t.now.flag ≠ _; simp [hf]) (by change t.now.flag ≠ _; simp [hf])
      exact ⟨hv, hsame.seq, hsame.fack⟩
    · exact lose_visited h (by simp [hf]) (by simp [hf])
    · exact ⟨h.visited (by simp [hf]), rfl, rfl⟩

theorem process_visited (dupackThreshold : ℤ) (h : t.Entered a b) :
    (t.process dupackThreshold).Visited a b ∧ Same t (t.process dupackThreshold) := by
  rw [process]
  by_cases hne : t.now.flag ≠ .sacked
  · rw [if_pos hne]
    have hr : ∀ s ∈ t.find.sacks.head?, t.find.now.seq < s.2 := fun s hs => by
      change s ∈ (t.sacks.dropWhile fun s => s.2 ≤ t.now.seq).head? at hs
      have hnot := List.head?_dropWhile_not (fun s : ℤ × ℤ => s.2 ≤ t.now.seq) t.sacks
      rw [Option.mem_def.mp hs] at hnot
      exact not_le.mp (of_decide_eq_false hnot)
    obtain ⟨he, hsame, hu⟩ := cover_entered (t := t.find) h hne hr
    dsimp only
    split_ifs with hc
    · obtain ⟨hv, hsame'⟩ := check_visited dupackThreshold he
      exact ⟨hv, hsame'.seq.trans hsame.seq, hsame'.fack.trans hsame.fack⟩
    · exact ⟨he.visited (by simp [hu (eq_false_of_ne_true hc)]), hsame.seq, hsame.fack⟩
  · rw [if_neg hne]
    exact ⟨h.visited (by simp [not_not.mp hne]), rfl, rfl⟩

theorem mergePrev_visited (h : t.Visited a b) :
    t.mergePrev.Visited a b ∧ t.mergePrev.now.getEnd = t.now.getEnd ∧
      t.mergePrev.fack = t.fack := by
  rw [mergePrev]
  cases hb : t.before with
  | nil => exact ⟨h, rfl, rfl⟩
  | cons prev before =>
    dsimp only
    split_ifs with hm
    · have hr : prev.flag ≠ .retransmitted := hm.2 ▸ hm.1
      exact ⟨h.merge hb hm.1 hm.2, (if_neg hr).trans (if_neg hm.1).symm, rfl⟩
    · exact ⟨h, rfl, rfl⟩

theorem extend_visited (h : t.Visited a b) :
    ∃ b', t.extend.Visited a b' ∧ max b' (t.fack + 1) = max b (t.fack + 1) ∧
      t.extend.now = t.now ∧ t.extend.fack = t.fack := by
  rw [extend]
  split_ifs with hc
  · obtain ⟨-, -, hpost⟩ := tiles_middle.mp h.sound.tiles
    rw [hc.1] at hpost
    obtain rfl := tiles_nil.mp hpost
    refine ⟨_, h.append hc.1 hc.2, ?_, rfl, rfl⟩
    rw [max_self, max_eq_right (by omega)]
  · exact ⟨b, h, rfl, rfl, rfl⟩

theorem visit_visited (dupackThreshold : ℤ) (h : t.Entered a b) :
    ∃ b', (t.visit dupackThreshold).Visited a b' ∧ max b' (t.fack + 1) = max b (t.fack + 1) ∧
      t.now.seq ≤ (t.visit dupackThreshold).now.getEnd ∧
      (t.visit dupackThreshold).fack = t.fack := by
  obtain ⟨hp, hsame⟩ := process_visited dupackThreshold h
  obtain ⟨hm, hend, hfack⟩ := mergePrev_visited hp
  obtain ⟨b', he, hmax, hnow, hfack'⟩ := extend_visited hm
  have hle := (tiles_middle.mp hp.sound.tiles).2.1
  rw [hfack, hsame.fack] at hmax hfack'
  refine ⟨b', he, hmax, ?_, hfack'⟩
  rw [visit, hnow, hend, ← hsame.seq]
  exact hle

/-- The pass ends within as many steps as there are packets up to the last one or `fack_`: either
behind the last node, or where no block is left and nothing new was learned. What each step keeps
holds of the last node that is visited or of the first one that is not. -/
theorem loop_rule {P : Traversal → Prop} (dupackThreshold : ℤ)
    (hstep : ∀ t c, P t → (t.sacks ≠ [] ∨ t.thorough = true) →
      (t.visit dupackThreshold).next = some c → P { t.visit dupackThreshold with toCursor := c })
    {k : ℕ} (h : t.Entered a b) (hP : P t) (hk : max b (t.fack + 1) - t.now.seq ≤ k) :
    ∃ t' b', loop dupackThreshold k t = .ok t' ∧ t'.Sound a b' ∧
      max b' (t.fack + 1) = max b (t.fack + 1) ∧ t'.fack = t.fack ∧
      (t'.Visited a b' ∧ t'.rest = [] ∧
          (∃ t₀, P t₀ ∧ (t₀.sacks ≠ [] ∨ t₀.thorough = true) ∧ t' = t₀.visit dupackThreshold) ∨
        t'.Entered a b' ∧ P t' ∧ t'.sacks = [] ∧ t'.thorough = false) := by
  induction k generalizing t b with
  | zero =>
    obtain ⟨-, hle, hpost⟩ := tiles_middle.mp h.sound.tiles
    have := hpost.le
    have := le_max_left b (t.fack + 1)
    push_cast at hk
    omega
  | succ k ih =>
    rw [loop]
    split_ifs with hgo
    · obtain ⟨b', hv, hmax, hle, hfack⟩ := visit_visited dupackThreshold h
      dsimp only
      cases hn : (t.visit dupackThreshold).next with
      | none =>
        refine ⟨_, b', rfl, hv.sound, hmax, hfack, .inl ⟨hv, ?_, t, hP, hgo, rfl⟩⟩
        rw [Cursor.next] at hn
        cases hr : (t.visit dupackThreshold).rest with
        | nil => rfl
        | cons n rest => rw [hr] at hn; exact absurd hn (by simp)
      | some c =>
        obtain ⟨he, hseq, hfack'⟩ := hv.next hn
        obtain ⟨t', b'', hok, hs, hmax', hfack'', hend⟩ := ih
          (t := { t.visit dupackThreshold with toCursor := c }) he (hstep t c hP hgo hn) (by
            change max b' (c.fack + 1) - c.now.seq ≤ k
            rw [hfack', hfack, hmax, hseq]
            push_cast at hk
            omega)
        change max b'' (c.fack + 1) = max b' (c.fack + 1) at hmax'
        rw [hfack', hfack] at hmax'
        exact ⟨t', b'', hok, hs, hmax'.trans hmax, (hfack''.trans hfack').trans hfack, hend⟩
    · obtain ⟨hs, ht⟩ := not_or.mp hgo
      exact ⟨t, b, rfl, h.sound, rfl, rfl,
        .inr ⟨h, hP, not_not.mp hs, eq_false_of_ne_true ht⟩⟩

end Traversal

theorem Counted.nil {f : ScoreBoard1Fields} (h : Counted f a [] b) (s : ℤ) : Counted f s [] s :=
  ⟨rfl, h.sackOut, h.fackOut, h.addressed⟩

namespace ScoreBoard1

variable {f : ScoreBoard1Fields} {sb : ScoreBoard1} {head : ScoreBoardNode1}
  {rest : List ScoreBoardNode1} {c : Cursor}

/-- The nodes lie above the last ACK, and the pointer points to one of them. -/
structure Good (sb : ScoreBoard1) (lastAck : ℤ) : Prop where
  counted : ∃ a b, lastAck < a ∧ Counted sb.toScoreBoard1Fields a sb.nodes b
  points : Points sb.toScoreBoard1Fields sb.nodes

/-- The counters of a board whose head has lost some packets. -/
structure Forgotten (f f' : ScoreBoard1Fields) (head : ScoreBoardNode1)
    (rest : List ScoreBoardNode1) (left : ℤ) : Prop where
  fresh : f'.fresh = f.fresh
  nxtToRetrx : f'.nxtToRetrx = f.nxtToRetrx
  sackOut : f'.sackOut = (if head.flag = .sacked then left else 0) + packets .sacked rest
  fackOut : f'.fackOut = (if head.flag = .lost then left else 0) + packets .lost rest

/-- The packets of the head are counted, so that neither counter gets negative. -/
theorem forget_eq {k : ℤ} (h : Counted f a (head :: rest) b) (hk : k ≤ head.getLength) :
    ∃ f', f.forget head.flag k = .ok f' ∧ Forgotten f f' head rest (head.getLength - k) := by
  obtain ⟨⟨-, -, htiles⟩, hs, hl, -⟩ := h
  have hs₀ := packets_nonneg .sacked htiles
  have hl₀ := packets_nonneg .lost htiles
  rw [packets_cons] at hs hl
  cases hf : head.flag with
  | sacked =>
    simp only [hf, if_true, reduceCtorEq, if_false, zero_add] at hs hl
    exact ⟨_, if_pos (by omega), rfl, rfl, by rw [if_pos hf]; change f.sackOut - k = _; omega,
      by rw [hf]; exact hl.trans (zero_add _).symm⟩
  | lost =>
    simp only [hf, if_true, reduceCtorEq, if_false, zero_add] at hs hl
    exact ⟨_, if_pos (by omega), rfl, rfl, by rw [hf]; exact hs.trans (zero_add _).symm,
      by rw [if_pos hf]; change f.fackOut - k = _; omega⟩
  | inflight =>
    rw [hf] at hs hl
    exact ⟨f, rfl, rfl, rfl, by rw [hf]; exact hs, by rw [hf]; exact hl⟩
  | retransmitted =>
    rw [hf] at hs hl
    exact ⟨f, rfl, rfl, rfl, by rw [hf]; exact hs, by rw [hf]; exact hl⟩

/-- The whole head is acked. -/
theorem Counted.deleteHead {f' : ScoreBoard1Fields} (h : Counted f a (head :: rest) b)
    (hf : Forgotten f f' head rest (head.getLength - head.getLength)) :
    Counted (f'.deleteHead head rest) (head.getEnd + 1) rest b where
  tiles := h.tiles.2.2
  sackOut := by
    have := hf.sackOut
    rwa [sub_self, ite_self, zero_add] at this
  fackOut := by
    have := hf.fackOut
    rwa [sub_self, ite_self, zero_add] at this
  addressed := by
    change Addressed f'.fresh rest
    rw [hf.fresh]
    exact h.addressed.sublist ((List.sublist_cons_self _ _).map _)

theorem Points.deleteHead {f' : ScoreBoard1Fields} (h : Points f (head :: rest))
    (hn : f'.nxtToRetrx = f.nxtToRetrx) : Points (f'.deleteHead head rest) rest := fun addr ha => by
  change (if f'.nxtToRetrx = some head.addr then _ else f'.nxtToRetrx) = _ at ha
  split_ifs at ha with hc
  · obtain ⟨n, hn, rfl⟩ := Option.map_eq_some_iff.mp ha
    exact ⟨n, List.mem_of_mem_head? hn, rfl⟩
  · obtain ⟨n, hm, rfl⟩ := h addr (hn ▸ ha)
    rcases List.mem_cons.mp hm with rfl | hm
    · exact absurd ha hc
    · exact ⟨n, hm, rfl⟩

/-- A part of the head is acked. -/
theorem Counted.trimHead {f' : ScoreBoard1Fields} (h : Counted f a (head :: rest) b)
    (hr : head.flag ≠ .retransmitted) (hlt : s ≤ head.nxt)
    (hf : Forgotten f f' head rest (head.getLength - (s - head.seq))) :
    Counted f' s ({ head with seq := s } :: rest) b := by
  have hlen : head.getLength = head.nxt + 1 - head.seq := if_neg hr
  have hlen' : ({ head with seq := s } : ScoreBoardNode1).getLength = head.nxt + 1 - s := if_neg hr
  have hend : ({ head with seq := s } : ScoreBoardNode1).getEnd = head.nxt := if_neg hr
  have hleft : head.getLength - (s - head.seq) = head.nxt + 1 - s := by omega
  obtain ⟨hfresh, -, hs, hl⟩ := hf
  refine ⟨⟨rfl, hlt.trans_eq hend.symm, ?_⟩, ?_, ?_, ?_⟩
  · rw [hend, ← getEnd_of_ne hr]
    exact h.tiles.2.2
  · rw [packets_cons, hlen', ← hleft]
    exact hs
  · rw [packets_cons, hlen', ← hleft]
    exact hl
  · rw [hfresh]
    exact h.addressed.congr rfl

/-- The queue is cleaned: either some node lies above the ACK, or all nodes are deleted. -/
theorem cleanRtxQueue_good {ns : List ScoreBoardNode1} (h : Counted f a ns b) (hp : Points f ns)
    (lastAck : ℤ) (changed : Bool) (flag : AckFlags) :
    ∃ sb changed' flag', cleanRtxQueue lastAck f ns changed flag = .ok (sb, changed', flag') ∧
      sb.Good lastAck ∧ (sb.nodes = [] → ∀ n ∈ ns, n.getEnd ≤ lastAck) := by
  induction ns generalizing f a changed flag with
  | nil =>
    exact ⟨_, _, _, rfl, ⟨⟨_, _, lt_add_one lastAck, h.nil _⟩, hp⟩, fun _ n hn => by simp at hn⟩
  | cons head rest ih =>
    obtain ⟨hseq, hle, -⟩ := h.tiles
    rw [cleanRtxQueue, shouldClean]
    by_cases habove : lastAck < head.seq
    · rw [if_pos habove]
      exact ⟨_, _, _, rfl, ⟨⟨a, b, hseq ▸ habove, h⟩, hp⟩, fun he => absurd he (by simp)⟩
    · rw [if_neg habove]
      by_cases hall : head.flag = .retransmitted ∨ head.nxt ≤ lastAck
      · have hend : head.getEnd ≤ lastAck := by
          rw [getEnd]
          split_ifs with hr
          · exact not_lt.mp habove
          · exact hall.resolve_left hr
        obtain ⟨f', he, hf⟩ := forget_eq h le_rfl
        rw [if_pos hall]
        dsimp only
        rw [if_neg (by decide), if_pos (by decide), he]
        obtain ⟨sb, changed', flag', he', hg, hnil⟩ := ih (Counted.deleteHead h hf)
          (Points.deleteHead hp hf.nxtToRetrx)
          (changed || decide (head.flag = .retransmitted ∧ f'.ackedRtxId < head.retran))
          { flag with unsureTstamp := flag.unsureTstamp || decide (head.flag = .retransmitted) }
        exact ⟨sb, changed', flag', he', hg, fun hn => List.forall_mem_cons.mpr ⟨hend, hnil hn⟩⟩
      · obtain ⟨hr, hnxt⟩ := not_or.mp hall
        have hlen : head.getLength = head.nxt + 1 - head.seq := if_neg hr
        obtain ⟨f', he, hf⟩ := forget_eq (k := lastAck + 1 - head.seq) h (by omega)
        rw [if_neg hall]
        dsimp only
        have hpos : ¬ lastAck + 1 - head.seq < 0 := by omega
        rw [if_neg (by omega), if_neg hpos, he]
        refine ⟨⟨f', { head with seq := lastAck + 1 } :: rest⟩, _, _, if_neg hpos,
          ⟨⟨lastAck + 1, b, lt_add_one _,
          Counted.trimHead h hr (by omega) hf⟩, fun addr ha => ?_⟩, fun he => absurd he (by simp)⟩
        obtain ⟨n, hn, rfl⟩ := hp addr (hf.nxtToRetrx ▸ ha)
        rcases List.mem_cons.mp hn with rfl | hn
        · exact ⟨_, List.mem_cons_self, rfl⟩
        · exact ⟨n, List.mem_cons_of_mem _ hn, rfl⟩

end ScoreBoard1

end Ns2XPass
