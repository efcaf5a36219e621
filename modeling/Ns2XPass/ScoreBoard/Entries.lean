import Ns2XPass.Library.Except
import Ns2XPass.Library.Machine
import Ns2XPass.Library.Ring
import Ns2XPass.ScoreBoard.Circular

/-! # The entries of the circular scoreboard

A ledger records what each packet has been through since its entry was created.
The ring shows the ledger's entries, in order, whatever the loops that move the
window and the resizes in between do.
-/

namespace Ns2XPass

/-- The SACK block covers the packet. -/
def covers (s : ℤ × ℤ) (i : ℕ) : Bool := decide (s.1 ≤ i ∧ (i : ℤ) < s.2)

/-- The entries from `lo` to `hi`. For each there are the blocks reported since it was created and
whether it has been retransmitted since. The ledger counts the retransmitted entries that were
later acked or SACKed, and sums up what has been returned. -/
structure Ledger where
  acked : ℤ
  lo : ℕ
  hi : ℕ
  since : ℕ → List (ℤ × ℤ)
  retransmitted : ℕ → Bool
  settled : ℕ
  returned : ℕ

namespace Ledger

variable (g : Ledger)

/-- Some block reported since the entry was created covers it. -/
def sacked (i : ℕ) : Bool := (g.since i).any (covers · i)

/-- Retransmitted and not yet acked or SACKed. -/
def pending (i : ℕ) : Bool := g.retransmitted i && !g.sacked i

/-- The first entry is acked. -/
def dropFirst : Ledger :=
  { g with lo := g.lo + 1, settled := g.settled + (g.pending g.lo).toNat }

/-- The first `n` entries are acked, as far as there are any. -/
def drop : ℕ → Ledger → Ledger
  | 0, g => g
  | n + 1, g => if g.lo < g.hi then drop n g.dropFirst else g

def ack (lastAck : ℤ) : Ledger :=
  { drop (lastAck + 1 - g.lo).toNat g with acked := lastAck }

/-- A new entry without any report. -/
def append : Ledger :=
  { g with
    hi := g.hi + 1
    since := Function.update g.since g.hi []
    retransmitted := Function.update g.retransmitted g.hi false }

/-- An empty ledger begins at the packet after the one that is acked. -/
def create (blocks : List (ℤ × ℤ)) : Ledger :=
  if g.lo = g.hi ∧ blocks ≠ [] then
    { g with lo := (g.acked + 1).toNat, hi := (g.acked + 1).toNat }.append
  else g

/-- There is an entry for each packet below `right`. -/
def extend (right : ℤ) : Ledger := append^[(right - g.hi).toNat] g

/-- The block is reported to all entries. -/
def report (s : ℤ × ℤ) : Ledger :=
  { g with
    since := fun i => g.since i ++ [s]
    settled := g.settled +
      (List.range' g.lo (g.hi - g.lo)).countP fun i => g.pending i && covers s i }

def reportAll : List (ℤ × ℤ) → Ledger → Ledger
  | [], g => g
  | s :: blocks, g => reportAll blocks ((g.extend s.2).report s)

def update (lastAck : ℤ) (blocks : List (ℤ × ℤ)) : Ledger :=
  reportAll blocks ((g.ack lastAck).create blocks)

def clear : Ledger := { g with hi := g.lo }

def mark (i : ℕ) : Ledger := { g with retransmitted := Function.update g.retransmitted i true }

/-- What the ring shows for a packet. -/
def node (sndNxt : ℕ → ℤ) (i : ℕ) : ScoreBoardNode :=
  ⟨i, false, g.sacked i, g.pending i, sndNxt i⟩

variable {g : Ledger} {n : ℕ}

@[simp] theorem drop_hi : (drop n g).hi = g.hi := by
  induction n generalizing g with
  | zero => rfl
  | succ n ih =>
    rw [drop]
    split_ifs
    · exact ih
    · rfl

theorem drop_of_empty (h : g.lo = g.hi) : drop n g = g := by
  cases n with
  | zero => rfl
  | succ n => rw [drop, if_neg h.not_lt]

theorem drop_lo (h : g.lo ≤ g.hi) : (drop n g).lo = min (g.lo + n) g.hi := by
  induction n generalizing g with
  | zero => exact (min_eq_left h).symm
  | succ n ih =>
    rw [drop]
    split_ifs with hlt
    · rw [ih (g := g.dropFirst) hlt]
      change min (g.lo + 1 + n) g.hi = _
      rw [Nat.add_right_comm, Nat.add_assoc]
    · omega

theorem node_append_of_lt {nxt : ℕ → ℤ} {i : ℕ} (hi : i < g.hi) (v : ℤ) :
    g.append.node (Function.update nxt g.hi v) i = g.node nxt i := by
  simp only [node, pending, sacked, append, Function.update_of_ne hi.ne]

theorem node_append_self {nxt : ℕ → ℤ} :
    g.append.node (Function.update nxt g.hi 0) g.hi = ⟨g.hi, false, false, false, 0⟩ := by
  simp [node, pending, sacked, append]

theorem append_iterate_hi : (append^[n] g).hi = g.hi + n := by
  induction n with
  | zero => rfl
  | succ n ih =>
    rw [Function.iterate_succ_apply', append, ih]
    rfl

theorem append_iterate_lo : (append^[n] g).lo = g.lo := by
  induction n with
  | zero => rfl
  | succ n ih =>
    rw [Function.iterate_succ_apply', append, ih]

theorem append_iterate_settled : (append^[n] g).settled = g.settled := by
  induction n with
  | zero => rfl
  | succ n ih =>
    rw [Function.iterate_succ_apply', append, ih]

@[simp] theorem drop_returned : (drop n g).returned = g.returned := by
  induction n generalizing g with
  | zero => rfl
  | succ n ih =>
    rw [drop]
    split_ifs
    · exact ih
    · rfl

theorem append_iterate_acked : (append^[n] g).acked = g.acked ∧
    (append^[n] g).returned = g.returned := by
  induction n with
  | zero => exact ⟨rfl, rfl⟩
  | succ n ih => rwa [Function.iterate_succ_apply', append]

theorem reportAll_acked (blocks : List (ℤ × ℤ)) : (g.reportAll blocks).acked = g.acked ∧
    (g.reportAll blocks).returned = g.returned := by
  induction blocks generalizing g with
  | nil => exact ⟨rfl, rfl⟩
  | cons s blocks ih =>
    rw [reportAll]
    exact ⟨ih.1.trans append_iterate_acked.1, ih.2.trans append_iterate_acked.2⟩

theorem update_acked (lastAck : ℤ) (blocks : List (ℤ × ℤ)) :
    (g.update lastAck blocks).acked = lastAck ∧
      (g.update lastAck blocks).returned = g.returned := by
  have hc : ((g.ack lastAck).create blocks).acked = lastAck ∧
      ((g.ack lastAck).create blocks).returned = g.returned := by
    rw [create]
    split_ifs
    · exact ⟨rfl, drop_returned⟩
    · exact ⟨rfl, drop_returned⟩
  rw [update]
  exact ⟨(reportAll_acked blocks).1.trans hc.1, (reportAll_acked blocks).2.trans hc.2⟩

end Ledger

namespace ScoreBoard

variable {junk : ℕ → ℕ → ScoreBoardNode} {sb sb' : ScoreBoard} {g : Ledger} {i n d : ℕ}
  {lastAck : ℤ} {blocks : List (ℤ × ℤ)} {s : ℤ × ℤ}

/-- The ring shows the entries of the ledger. -/
structure Keeps (sb : ScoreBoard) (g : Ledger) : Prop where
  size : 2 ≤ sb.sbsize
  length : g.lo + sb.length = g.hi
  room : sb.length < sb.sbsize
  first : sb.length ≠ 0 → sb.first = g.lo
  shows : ∃ sndNxt, Shows sb.cells sb.sbsize (g.node sndNxt) g.lo g.hi

/-- The computation yields a value with the property, unless a sum of type `int` overflows, and
then the bound is as large as an `int` cannot be. -/
def Yields {α : Type} (r : Except ScoreBoardError α) (bound : ℕ) (P : α → Prop) : Prop :=
  (∃ a, r = .ok a ∧ P a) ∨ r = .error .intOverflow ∧ 2 ^ 31 ≤ bound

namespace Keeps

variable (h : sb.Keeps g)
include h

theorem node_eq (hlo : g.lo ≤ i) (hhi : i < g.hi) : ∃ nxt, sb.node i = g.node nxt i :=
  let ⟨nxt, hs⟩ := h.shows
  ⟨nxt, hs.cell i hlo hhi⟩

theorem first_seqNo (hl : sb.length ≠ 0) : (sb.node sb.first).seqNo = g.lo := by
  have hlen := h.length
  obtain ⟨nxt, he⟩ := h.node_eq (i := g.lo) le_rfl (by omega)
  rw [h.first hl, he]
  rfl

/-- The first entry leaves the window. -/
theorem dropFirst (hl : sb.length ≠ 0) :
    (sb.dropFirst g.lo d).1.Keeps g.dropFirst ∧ (sb.dropFirst g.lo d).1.length = sb.length - 1 ∧
      (sb.dropFirst g.lo d).2 + g.settled = d + g.dropFirst.settled := by
  have hlen := h.length
  have hroom := h.room
  obtain ⟨nxt, hs⟩ := h.shows
  have he : sb.node g.lo = g.node nxt g.lo := hs.cell g.lo le_rfl (by omega)
  refine ⟨⟨h.size, ?_, ?_, fun _ => ?_, nxt, ?_⟩, rfl, ?_⟩
  · change g.lo + 1 + (sb.length - 1) = g.hi
    omega
  · change sb.length - 1 < sb.sbsize
    omega
  · change sb.first + 1 = g.lo + 1
    rw [h.first hl]
  · have hw := hs.write (i := g.lo) le_rfl (by omega)
      (if (sb.node g.lo).retran then
        { sb.node g.lo with ackFlag := true, sackFlag := true, retran := false, sndNxt := 0 }
        else { sb.node g.lo with ackFlag := true, sackFlag := true })
    exact (hw.mono (Nat.le_succ g.lo) le_rfl).congr fun i hlo _ =>
      Function.update_of_ne (by omega) ..
  · change (if (sb.node g.lo).retran then d + 1 else d) + g.settled = _
    rw [he]
    change (if g.pending g.lo then d + 1 else d) + g.settled =
      d + (g.settled + (g.pending g.lo).toNat)
    cases g.pending g.lo with
    | false => simp
    | true => simp only [if_true, Bool.toNat_true]; omega

theorem advance (lastAck : ℤ) (hl : sb.length ≠ 0) (hn : (g.lo : ℤ) + n ≤ lastAck + 1) :
    ∃ sb' d', ScoreBoard.advance lastAck n g.lo sb d = .ok (sb', d') ∧
      sb'.Keeps (Ledger.drop n g) ∧ sb'.sbsize = sb.sbsize ∧
      d' + g.settled = d + (Ledger.drop n g).settled := by
  induction n generalizing sb g d with
  | zero => exact ⟨sb, d, rfl, h, rfl, rfl⟩
  | succ n ih =>
    have hlen := h.length
    have hseq : (sb.node g.lo).seqNo = g.lo := by rw [← h.first hl, h.first_seqNo hl, h.first hl]
    obtain ⟨hk, hlen', hd⟩ := h.dropFirst (d := d) hl
    rw [ScoreBoard.advance, hseq, if_pos (by omega), if_neg (not_not.mpr (h.first hl)), if_neg hl,
      Ledger.drop, if_pos (by omega)]
    change ∃ sb' d', (if (sb.dropFirst g.lo d).1.length = 0 then _ else _) = _ ∧ _
    by_cases hl' : (sb.dropFirst g.lo d).1.length = 0
    · have hempty := hk.length
      rw [hl', Nat.add_zero] at hempty
      rw [if_pos hl', Ledger.drop_of_empty hempty]
      exact ⟨_, _, rfl, hk, rfl, hd⟩
    · have hn' : (g.dropFirst.lo : ℤ) + n ≤ lastAck + 1 := by
        change ((g.lo + 1 : ℕ) : ℤ) + n ≤ _
        omega
      rw [if_neg hl']
      obtain ⟨sb', d', hok, hk', hsize, hd'⟩ := ih hk (d := (sb.dropFirst g.lo d).2) hl' hn'
      exact ⟨sb', d', hok, hk', hsize, by omega⟩

/-- The window begins behind the ACK, if there is one. -/
theorem advanceLeft (hacked : sb.length ≠ 0 → (g.lo : ℤ) = g.acked + 1)
    (hle : g.acked ≤ lastAck) :
    ∃ sb' d, sb.advanceLeft lastAck = .ok (sb', d) ∧ sb'.Keeps (g.ack lastAck) ∧
      sb'.sbsize = sb.sbsize ∧ d + g.settled = (g.ack lastAck).settled ∧
      (sb'.length ≠ 0 → ((g.ack lastAck).lo : ℤ) = lastAck + 1) := by
  have hlen := h.length
  rw [ScoreBoard.advanceLeft]
  split_ifs with hc
  · obtain ⟨hl, hseq⟩ := hc
    rw [h.first_seqNo hl] at hseq ⊢
    obtain ⟨sb', d', hok, hk, hsize, hd⟩ :=
      h.advance (d := 0) (n := (lastAck + 1 - g.lo).toNat) lastAck hl (by omega)
    refine ⟨sb', d', hok, ⟨hk.size, hk.length, hk.room, hk.first, hk.shows⟩, hsize,
      by rw [hd, Nat.zero_add]; rfl, fun hl' => ?_⟩
    have hlen' := hk.length
    rw [Ledger.drop_hi] at hlen'
    have hlo := Ledger.drop_lo (g := g) (n := (lastAck + 1 - g.lo).toNat) (by omega)
    change ((Ledger.drop (lastAck + 1 - g.lo).toNat g).lo : ℤ) = _
    omega
  · have hdrop : Ledger.drop (lastAck + 1 - g.lo).toNat g = g := by
      by_cases hl : sb.length = 0
      · exact Ledger.drop_of_empty (by omega)
      · have hgt : lastAck < g.lo := by
          rw [h.first_seqNo hl] at hc
          omega
        rw [Int.toNat_of_nonpos (by omega)]
        rfl
    have hack : g.ack lastAck = { g with acked := lastAck } := by rw [Ledger.ack, hdrop]
    rw [hack]
    refine ⟨sb, 0, rfl, ⟨h.size, h.length, h.room, h.first, h.shows⟩, rfl, Nat.zero_add _,
      fun hl => ?_⟩
    have hlo := hacked hl
    rw [h.first_seqNo hl] at hc
    change (g.lo : ℤ) = lastAck + 1
    omega

/-- A new entry behind the window. -/
theorem append (hfirst : sb.first = g.lo) (hroom : sb.length + 1 < sb.sbsize) :
    ∃ sb', sb.append g.hi = .ok sb' ∧ sb'.Keeps g.append ∧ sb'.first = sb.first ∧
      sb'.length = sb.length + 1 ∧ sb'.sbsize = sb.sbsize := by
  have hlen := h.length
  obtain ⟨nxt, hs⟩ := h.shows
  refine ⟨_, if_neg hroom.not_ge, ⟨h.size, ?_, hroom, fun _ => hfirst,
    Function.update nxt g.hi 0, ?_⟩, rfl, rfl, rfl⟩
  · change g.lo + (sb.length + 1) = g.hi + 1
    omega
  · have hs' := hs.congr fun i _ hi => (Ledger.node_append_of_lt hi 0).symm
    have he := hs'.extend (by omega) (by omega)
    rwa [Ledger.node_append_self] at he

theorem create (blocks : List (ℤ × ℤ)) (hacked : sb.length ≠ 0 → (g.lo : ℤ) = g.acked + 1)
    (hneg : -1 ≤ g.acked) :
    ∃ sb', sb.create g.acked blocks = .ok sb' ∧ sb'.Keeps (g.create blocks) ∧
      sb'.sbsize = sb.sbsize ∧ (g.create blocks).settled = g.settled ∧
      (sb'.length ≠ 0 → ((g.create blocks).lo : ℤ) = g.acked + 1) ∧
      (blocks ≠ [] → sb'.length ≠ 0) ∧ (g.create blocks).hi ≤ max g.hi (g.acked + 2).toNat := by
  have hlen := h.length
  have hsize := h.size
  by_cases hc : sb.length = 0 ∧ blocks ≠ []
  · have hg : g.lo = g.hi ∧ blocks ≠ [] := ⟨by omega, hc.2⟩
    have h' : Keeps { sb with first := (g.acked + 1).toNat }
        { g with lo := (g.acked + 1).toNat, hi := (g.acked + 1).toNat } :=
      ⟨h.size, by rw [hc.1]; rfl, h.room, fun _ => rfl, fun _ => 0, shows_empty⟩
    obtain ⟨sb', hok, hk, -, hl, hs⟩ := h'.append rfl (by dsimp only; omega)
    rw [ScoreBoard.create, if_pos hc, Ledger.create, if_pos hg]
    refine ⟨sb', hok, hk, hs, rfl, fun _ => ?_, fun _ => by omega, ?_⟩
    · change (((g.acked + 1).toNat : ℕ) : ℤ) = g.acked + 1
      omega
    · change (g.acked + 1).toNat + 1 ≤ _
      omega
  · have hg : ¬ (g.lo = g.hi ∧ blocks ≠ []) := fun hg => hc ⟨by omega, hg.2⟩
    rw [ScoreBoard.create, if_neg hc, Ledger.create, if_neg hg]
    exact ⟨sb, rfl, h, rfl, rfl, hacked, fun hne hl => hc ⟨hl, hne⟩, le_max_left ..⟩

/-- The entries move to a larger ring. -/
theorem resizeSB (junk : ℕ → ℕ → ScoreBoardNode) (hl : sb.length ≠ 0) {sz : ℕ}
    (hsz : sb.sbsize < sz) : (sb.resizeSB junk sz).Keeps g := by
  have hlen := h.length
  have hroom := h.room
  have hsize := h.size
  obtain ⟨nxt, hs⟩ := h.shows
  refine ⟨hsize.trans hsz.le, hlen, hroom.trans hsz, h.first, nxt, ?_⟩
  have hhi : g.hi + 1 - g.lo = sb.length + 1 := by omega
  have hcopy : Shows ((List.range' g.lo (g.hi + 1 - g.lo)).foldl
      (fun cells i => Function.update cells (i % sz) (sb.node i)) (junk sz)) sz sb.node g.lo
      (g.hi + 1) := shows_copy (by omega) (by omega) fun _ _ _ => rfl
  rw [hhi] at hcopy
  change Shows ((List.range' (sb.node sb.first).seqNo (sb.length + 1)).foldl _ _) _ _ _ _
  rw [h.first_seqNo hl]
  exact (hcopy.mono le_rfl (Nat.le_succ _)).congr hs.cell

theorem lastSeqNo (hl : sb.length ≠ 0) :
    Yields sb.lastSeqNo (g.hi + sb.sbsize) fun last => last = g.hi - 1 := by
  have hlen := h.length
  have hsize := h.size
  have hfirst := h.first hl
  obtain ⟨nxt, he⟩ := h.node_eq (i := g.hi - 1) (by omega) (by omega)
  have hmod : sb.first + sb.length + sb.sbsize - 1 = g.hi - 1 + sb.sbsize := by omega
  rw [ScoreBoard.lastSeqNo]
  split_ifs with hfit
  · refine .inl ⟨_, rfl, ?_⟩
    rw [hmod, ScoreBoard.node, Nat.add_mod_right]
    change (sb.node (g.hi - 1)).seqNo = _
    rw [he]
    rfl
  · exact .inr ⟨rfl, by omega⟩

/-- The ring grows beyond the width, to twice the width at most. -/
theorem grow (junk : ℕ → ℕ → ScoreBoardNode) (hl : sb.length ≠ 0) (width : ℤ) {S : ℕ}
    (hn : width + 2 ≤ sb.sbsize + n) (hS : sb.sbsize ≤ S) (hw : 2 * (width + 1) ≤ S) :
    Yields (ScoreBoard.grow junk width n sb) S fun sb' => sb'.Keeps g ∧ sb'.length = sb.length ∧
      width + 1 < sb'.sbsize ∧ sb'.sbsize ≤ S := by
  have hsize := h.size
  induction n generalizing sb with
  | zero =>
    rw [ScoreBoard.grow, if_neg (by omega)]
    exact .inl ⟨sb, rfl, h, rfl, by omega, hS⟩
  | succ n ih =>
    rw [ScoreBoard.grow]
    split_ifs with hc hsz
    · exact ih (h.resizeSB junk hl (by omega)) hl
        (by change _ ≤ ((sb.sbsize * 2 : ℕ) : ℤ) + n; omega)
        (by change sb.sbsize * 2 ≤ S; omega) (by change 2 ≤ sb.sbsize * 2; omega)
    · exact .inr ⟨rfl, by omega⟩
    · exact .inl ⟨sb, rfl, h, rfl, by omega, hS⟩

theorem createEntries (hfirst : sb.first = g.lo) (hroom : sb.length + n < sb.sbsize) :
    ∃ sb', ScoreBoard.createEntries n g.hi sb = .ok sb' ∧ sb'.Keeps (Ledger.append^[n] g) ∧
      sb'.sbsize = sb.sbsize ∧ sb'.length = sb.length + n := by
  induction n generalizing sb g with
  | zero => exact ⟨sb, rfl, h, rfl, rfl⟩
  | succ n ih =>
    obtain ⟨sb₁, hok, hk, hfirst', hl, hsize⟩ := h.append hfirst (by omega)
    obtain ⟨sb', hok', hk', hsize', hl'⟩ := ih hk (hfirst'.trans hfirst) (by omega)
    rw [ScoreBoard.createEntries, hok, Function.iterate_succ_apply]
    exact ⟨sb', hok', hk', hsize'.trans hsize, by omega⟩

/-- There is room for the entries below `right`, which begin behind the ACK. -/
theorem extend (junk : ℕ → ℕ → ScoreBoardNode) (hl : sb.length ≠ 0)
    (hlo : (g.lo : ℤ) = lastAck + 1) {right : ℤ} {R S : ℕ} (hR : right ≤ R) (hhi : g.hi ≤ R)
    (hS : sb.sbsize ≤ S) (hw : 2 * (R - lastAck + 1) ≤ S) :
    Yields (sb.extend junk lastAck right) (R + S) fun sb' => sb'.Keeps (g.extend right) ∧
      sb'.length ≠ 0 ∧ sb'.sbsize ≤ S ∧ (g.extend right).hi ≤ R := by
  have hlen := h.length
  have hsize := h.size
  have hroom := h.room
  rw [ScoreBoard.extend]
  rcases h.lastSeqNo hl with ⟨last, hlast, rfl⟩ | ⟨he, hover⟩
  swap
  · rw [he]
    exact .inr ⟨rfl, by omega⟩
  rw [hlast]
  change Yields (if (((g.hi - 1 : ℕ) : ℤ) < right) then _ else _) _ _
  split_ifs with hc
  · rcases h.grow junk hl (right - lastAck) (n := (right - lastAck + 2).toNat) (S := S) (by omega)
      hS (by omega) with ⟨sb₁, hok, hk, hl₁, hsz, hS₁⟩ | ⟨he, hover⟩
    swap
    · rw [he]
      exact .inr ⟨rfl, by omega⟩
    rw [hok]
    change Yields (do let last ← sb₁.lastSeqNo; _) _ _
    rcases hk.lastSeqNo (by omega) with ⟨last, hlast', rfl⟩ | ⟨he, hover⟩
    swap
    · rw [he]
      exact .inr ⟨rfl, by omega⟩
    obtain ⟨sb', hok', hk', hS', hl'⟩ :=
      hk.createEntries (n := (right - g.hi).toNat) (hk.first (by omega)) (by omega)
    have hcount : (right - (((g.hi - 1 : ℕ) : ℤ) + 1)).toNat = (right - g.hi).toNat := by omega
    have hstart : g.hi - 1 + 1 = g.hi := by omega
    rw [hlast']
    change Yields (ScoreBoard.createEntries _ _ _) _ _
    rw [hcount, hstart, hok']
    refine .inl ⟨sb', rfl, hk', by omega, by omega, ?_⟩
    rw [Ledger.extend, Ledger.append_iterate_hi]
    omega
  · have hid : g.extend right = g := by
      rw [Ledger.extend, Int.toNat_of_nonpos (by omega)]
      rfl
    rw [hid]
    exact .inl ⟨sb, rfl, h, hl, hS, hhi⟩

omit h in
theorem node_report (nxt : ℕ → ℤ) : (g.report s).node nxt i =
    if covers s i then { g.node nxt i with sackFlag := true, retran := false }
    else g.node nxt i := by
  simp only [Ledger.node, Ledger.pending, Ledger.sacked, Ledger.report, List.any_append,
    List.any_cons, List.any_nil, Bool.or_false]
  cases covers s i <;> simp

omit h in
/-- An entry that shows what the ledger says is marked if the block covers it. -/
theorem coverEntry_eq {nxt : ℕ → ℤ} (he : sb.node i = g.node nxt i) (s : ℤ × ℤ) (d : ℕ) :
    ∃ changed, coverEntry s.1 s.2 (sb, d) i =
      ({ sb.write i ((g.report s).node nxt i) with changed },
        d + (g.pending i && covers s i).toNat) := by
  rw [coverEntry, node_report]
  dsimp only
  rw [he]
  by_cases hc : s.1 ≤ (i : ℤ) ∧ (i : ℤ) < s.2
  · have hcov : covers s i = true := decide_eq_true hc
    refine ⟨if (g.node nxt i).sackFlag then sb.changed else sb.changed + 1, (if_pos hc).trans ?_⟩
    rw [hcov, if_pos rfl, Bool.and_true]
    refine Prod.ext rfl ?_
    change (if g.pending i then d + 1 else d) = _
    cases g.pending i <;> rfl
  · have hcov : covers s i = false := decide_eq_false hc
    refine ⟨sb.changed, (if_neg hc).trans ?_⟩
    rw [hcov, if_neg Bool.false_ne_true, Bool.and_false, ← he]
    refine Prod.ext ?_ rfl
    change sb = { sb with cells := Function.update sb.cells (i % sb.sbsize) _ }
    rw [ScoreBoard.node, Function.update_eq_self]

omit h in
/-- The loop over the first `k` entries marks those that the block covers. -/
theorem coverEntries (s : ℤ × ℤ) {nxt : ℕ → ℤ}
    (hs : Shows sb.cells sb.sbsize (g.node nxt) g.lo g.hi) {k : ℕ} (hk : g.lo + k ≤ g.hi) :
    ∃ cells changed, (List.range' g.lo k).foldl (coverEntry s.1 s.2) (sb, d) =
        ({ sb with cells, changed },
          d + (List.range' g.lo k).countP fun i => g.pending i && covers s i) ∧
      Shows cells sb.sbsize
        (fun i => if i < g.lo + k then (g.report s).node nxt i else g.node nxt i) g.lo g.hi := by
  induction k with
  | zero =>
    refine ⟨sb.cells, sb.changed, rfl, hs.congr fun i hi _ => ?_⟩
    rw [if_neg (by omega)]
  | succ k ih =>
    obtain ⟨cells, changed, hf, hc⟩ := ih (by omega)
    have he : ({ sb with cells, changed } : ScoreBoard).node (g.lo + k) = g.node nxt (g.lo + k) :=
      (hc.cell (g.lo + k) (by omega) (by omega)).trans (if_neg (lt_irrefl _))
    obtain ⟨changed', hcover⟩ := coverEntry_eq he s
      (d + (List.range' g.lo k).countP fun i => g.pending i && covers s i)
    have hw := hc.write (i := g.lo + k) (by omega) (by omega) ((g.report s).node nxt (g.lo + k))
    rw [List.range'_1_concat, List.foldl_concat, hf, hcover]
    refine ⟨_, changed', Prod.ext rfl ?_, hw.congr fun i _ _ => ?_⟩
    · rw [List.countP_append, List.countP_singleton, Bool.toNat, ← Nat.add_assoc]
      cases g.pending (g.lo + k) && covers s (g.lo + k) <;> rfl
    · rcases lt_trichotomy i (g.lo + k) with hlt | rfl | hgt
      · rw [Function.update_of_ne hlt.ne, if_pos hlt, if_pos (by omega)]
      · rw [Function.update_self, if_pos (by omega)]
      · rw [Function.update_of_ne hgt.ne', if_neg (by omega), if_neg (by omega)]

/-- A block below the end of the window is reported. -/
theorem coverBlock (hl : sb.length ≠ 0) (s : ℤ × ℤ) (hs : s.2 ≤ g.hi) :
    ∃ sb' d', sb.coverBlock s.1 s.2 d = (sb', d') ∧ sb'.Keeps (g.report s) ∧
      sb'.sbsize = sb.sbsize ∧ sb'.length = sb.length ∧
      d' + g.settled = d + (g.report s).settled := by
  have hlen := h.length
  obtain ⟨nxt, hshow⟩ := h.shows
  have hk : g.lo + (s.2 - g.lo).toNat ≤ g.hi := by omega
  obtain ⟨cells, changed, hf, hc⟩ := coverEntries (d := d) s hshow hk
  have hrest : ∀ i, g.lo + (s.2 - g.lo).toNat ≤ i → covers s i = false := fun i hi =>
    decide_eq_false fun hcov => by omega
  have hcount : (List.range' g.lo (g.hi - g.lo)).countP (fun i => g.pending i && covers s i) =
      (List.range' g.lo (s.2 - g.lo).toNat).countP fun i => g.pending i && covers s i := by
    have hsplit : g.hi - g.lo = (s.2 - g.lo).toNat + (g.hi - (g.lo + (s.2 - g.lo).toNat)) := by
      omega
    rw [hsplit, ← List.range'_append_1, List.countP_append, Nat.add_eq_left]
    refine List.countP_eq_zero.mpr fun i hi => ?_
    rw [hrest i (List.mem_range'_1.mp hi).1, Bool.and_false]
    exact Bool.false_ne_true
  rw [ScoreBoard.coverBlock, h.first_seqNo hl, hf]
  refine ⟨_, _, rfl, ⟨h.size, h.length, h.room, h.first, nxt, hc.congr fun i hi hhi => ?_⟩, rfl,
    rfl, ?_⟩
  · split_ifs with hlt
    · rfl
    · rw [node_report, hrest i (not_lt.mp hlt), if_neg Bool.false_ne_true]
  · change _ = d + (g.settled + _)
    rw [hcount]
    omega

/-- All blocks of a header are reported. -/
theorem coverBlocks (junk : ℕ → ℕ → ScoreBoardNode) (hl : blocks ≠ [] → sb.length ≠ 0)
    (hlo : sb.length ≠ 0 → (g.lo : ℤ) = lastAck + 1) {R S : ℕ} (hR : ∀ s ∈ blocks, s.2 ≤ (R : ℤ))
    (hhi : g.hi ≤ R) (hS : sb.sbsize ≤ S) (hw : 2 * (R - lastAck + 1) ≤ S) :
    Yields (ScoreBoard.coverBlocks junk lastAck blocks sb d) (R + S) fun r =>
      r.1.Keeps (g.reportAll blocks) ∧
      (r.1.length ≠ 0 → ((g.reportAll blocks).lo : ℤ) = lastAck + 1) ∧
      r.2 + g.settled = d + (g.reportAll blocks).settled := by
  induction blocks generalizing sb g d with
  | nil => exact .inl ⟨(sb, d), rfl, h, hlo, rfl⟩
  | cons s blocks ih =>
    have hl := hl (List.cons_ne_nil s blocks)
    have hlo := hlo hl
    obtain ⟨hRs, hR⟩ := List.forall_mem_cons.mp hR
    rw [ScoreBoard.coverBlocks]
    rcases h.extend junk hl hlo hRs hhi hS hw with ⟨sb₁, hok, hk, hl₁, hS₁, hhi₁⟩ | ⟨he, hover⟩
    swap
    · rw [he]
      exact .inr ⟨rfl, hover⟩
    have hs : s.2 ≤ (g.extend s.2).hi := by
      rw [Ledger.extend, Ledger.append_iterate_hi]
      omega
    have hlo₁ : ((g.extend s.2).lo : ℤ) = lastAck + 1 := by
      rw [Ledger.extend, Ledger.append_iterate_lo, hlo]
    have hsettled : (g.extend s.2).settled = g.settled := by
      rw [Ledger.extend, Ledger.append_iterate_settled]
    obtain ⟨sb₂, d₂, hc, hk₂, hsz, hl₂, hd⟩ := hk.coverBlock (d := d) hl₁ s hs
    rw [hok]
    change Yields (ScoreBoard.coverBlocks junk lastAck blocks (sb₁.coverBlock s.1 s.2 d).1
      (sb₁.coverBlock s.1 s.2 d).2) _ _
    rw [hc]
    rcases ih hk₂ (d := d₂) (fun _ => hl₂ ▸ hl₁) (fun _ => hlo₁) hR hhi₁ (hsz ▸ hS₁) with
      ⟨r, hok', hk', hlo', hd'⟩ | hover
    · refine .inl ⟨r, hok', hk', hlo', ?_⟩
      rw [Ledger.reportAll]
      omega
    · exact .inr hover

/-- The ring and the ledger after a call, with bounds for the packet numbers and the size. -/
theorem updateScoreBoard (junk : ℕ → ℕ → ScoreBoardNode)
    (hacked : sb.length ≠ 0 → (g.lo : ℤ) = g.acked + 1) (hneg : -1 ≤ g.acked)
    (hle : g.acked ≤ lastAck) {R S : ℕ} (hR : ∀ s ∈ blocks, s.2 ≤ (R : ℤ)) (hhi : g.hi ≤ R)
    (hack : lastAck + 2 ≤ R) (hS : sb.sbsize ≤ S) (hw : 2 * (R - lastAck + 1) ≤ S) :
    Yields (sb.updateScoreBoard junk lastAck blocks) (R + S) fun r =>
      r.1.Keeps (g.update lastAck blocks) ∧
      (r.1.length ≠ 0 → ((g.update lastAck blocks).lo : ℤ) = lastAck + 1) ∧
      r.2 + g.settled = (g.update lastAck blocks).settled := by
  have h₀ : Keeps { sb with changed := 0 } g := ⟨h.size, h.length, h.room, h.first, h.shows⟩
  obtain ⟨sb₁, d₁, hok₁, hk₁, hsz₁, hd₁, hlo₁⟩ := h₀.advanceLeft hacked hle
  obtain ⟨sb₂, hok₂, hk₂, hsz₂, hd₂, hlo₂, hne, hhi₂⟩ :=
    hk₁.create blocks hlo₁ (hneg.trans hle)
  have hack₂ : (g.ack lastAck).hi = g.hi := Ledger.drop_hi
  have hhi' : ((g.ack lastAck).create blocks).hi ≤ R := by
    rw [hack₂] at hhi₂
    change _ ≤ max g.hi (lastAck + 2).toNat at hhi₂
    omega
  rw [ScoreBoard.updateScoreBoard, hok₁]
  change Yields (do let sb ← sb₁.create lastAck blocks; _) _ _
  have hok₂ : sb₁.create lastAck blocks = .ok sb₂ := hok₂
  rw [hok₂]
  rcases hk₂.coverBlocks (d := d₁) junk hne hlo₂ hR hhi' (by rw [hsz₂, hsz₁]; exact hS) hw with
    ⟨r, hok₃, hk₃, hlo₃, hd₃⟩ | hover
  · refine .inl ⟨r, hok₃, hk₃, hlo₃, ?_⟩
    rw [Ledger.update]
    omega
  · exact .inr hover

/-- What is to be retransmitted next: the first entry that is neither SACKed nor retransmitted. -/
theorem getNextRetran :
    (sb.getNextRetran = -1 ∧
      ∀ i, g.lo ≤ i → i < g.hi → g.sacked i = true ∨ g.retransmitted i = true) ∨
    ∃ i : ℕ, sb.getNextRetran = i ∧ g.lo ≤ i ∧ i < g.hi ∧ g.sacked i = false ∧
      g.retransmitted i = false ∧
      ∀ j, g.lo ≤ j → j < i → g.sacked j = true ∨ g.retransmitted j = true := by
  have hlen := h.length
  have hwanted : ∀ i, g.lo ≤ i → i < g.hi →
      sb.wanted i = (!g.sacked i && !g.retransmitted i) := fun i hlo hhi => by
    obtain ⟨nxt, he⟩ := h.node_eq hlo hhi
    rw [wanted, he]
    change (!false && !g.sacked i && !(g.retransmitted i && !g.sacked i)) = _
    cases g.sacked i <;> cases g.retransmitted i <;> rfl
  have hor : ∀ i, g.lo ≤ i → i < g.hi → sb.wanted i = false →
      g.sacked i = true ∨ g.retransmitted i = true := fun i hlo hhi hw => by
    rw [hwanted i hlo hhi] at hw
    cases hs : g.sacked i <;> simp_all
  rw [ScoreBoard.getNextRetran]
  split_ifs with hl
  · rw [h.first_seqNo hl]
    cases hf : (List.range' g.lo sb.length).find? sb.wanted with
    | none =>
      refine .inl ⟨rfl, fun i hlo hhi => hor i hlo hhi ?_⟩
      simpa using List.find?_range'_eq_none.mp hf i hlo (by omega)
    | some i =>
      obtain ⟨hw, hm, hleast⟩ := List.find?_range'_eq_some.mp hf
      obtain ⟨hlo, hhi⟩ := List.mem_range'_1.mp hm
      rw [hwanted i hlo (by omega), Bool.and_eq_true, Bool.not_eq_true', Bool.not_eq_true'] at hw
      refine .inr ⟨i, rfl, hlo, by omega, hw.1, hw.2, fun j hj hji => ?_⟩
      exact hor j hj (by omega) (by simpa using hleast j hj hji)
  · exact .inl ⟨rfl, fun i hlo hhi => by omega⟩

theorem markRetran (hlo : g.lo ≤ i) (hhi : i < g.hi) (hs : g.sacked i = false)
    (sndNxt : Option ℤ) : (sb.markRetran i sndNxt).Keeps (g.mark i) := by
  obtain ⟨nxt, hshow⟩ := h.shows
  have he : sb.node i = g.node nxt i := hshow.cell i hlo hhi
  refine ⟨h.size, h.length, h.room, h.first, Function.update nxt i (sndNxt.getD (nxt i)), ?_⟩
  refine (hshow.write hlo hhi { sb.node i with
    retran := true, sndNxt := sndNxt.getD (sb.node i).sndNxt }).congr fun j _ _ => ?_
  by_cases hji : j = i
  · subst hji
    rw [Function.update_self, he]
    simp [Ledger.node, Ledger.pending, Ledger.mark, Ledger.sacked] at hs ⊢
    exact hs
  · rw [Function.update_of_ne hji]
    simp [Ledger.node, Ledger.pending, Ledger.mark, Ledger.sacked, Function.update_of_ne hji]

theorem clearScoreBoard : sb.clearScoreBoard.Keeps g.clear :=
  ⟨h.size, rfl, by have := h.size; change 0 < sb.sbsize; omega, fun hl => absurd rfl hl,
    fun _ => 0, shows_empty⟩

end Keeps

end ScoreBoard

/-! ## Runs -/

/-- A board of the given size without entries. -/
def circular (junk : ℕ → ℕ → ScoreBoardNode) (size : ℕ) :
    Machine ScoreBoard ScoreBoardCall ScoreBoardError where
  Init sb := sb.first = 0 ∧ sb.length = 0 ∧ sb.sbsize = size
  Enabled _ _ := True
  step sb c := (c.run junk sb).map Prod.fst

namespace Ledger

def record (junk : ℕ → ℕ → ScoreBoardNode) (sb : ScoreBoard) (c : ScoreBoardCall)
    (_ : ScoreBoard) (g : Ledger) : Ledger :=
  let retranDecr := (c.run junk sb).toOption.elim 0 Prod.snd
  match c with
  | .updateScoreBoard lastAck blocks =>
    { g.update lastAck blocks with returned := g.returned + retranDecr }
  | .retransmit _ =>
    if sb.getNextRetran = -1 then g else g.mark sb.getNextRetran.toNat
  | .clearScoreBoard => g.clear

/-- The cumulative ACK does not decrease. -/
def Legal (p : ScoreBoard × Ledger) : ScoreBoardCall → Prop
  | .updateScoreBoard lastAck _ => p.2.acked ≤ lastAck
  | _ => True

instance (p : ScoreBoard × Ledger) : DecidablePred (Legal p)
  | .updateScoreBoard lastAck _ => inferInstanceAs (Decidable (p.2.acked ≤ lastAck))
  | .retransmit _ | .clearScoreBoard => inferInstanceAs (Decidable True)

/-- The sums of type `int` do not overflow: `R` bounds the packet numbers, and the ring is not
resized beyond twice the width of the window that the header asks for. -/
def Fits (p : ScoreBoard × Ledger) : ScoreBoardCall → Prop
  | .updateScoreBoard lastAck blocks =>
    ∃ R : ℕ, p.2.hi ≤ R ∧ lastAck + 2 ≤ R ∧ (∀ s ∈ blocks, s.2 ≤ (R : ℤ)) ∧
      (R : ℤ) + max (p.1.sbsize : ℤ) (2 * (R - lastAck + 1)) < 2 ^ 31
  | _ => True

end Ledger

def emptyLedger : Ledger :=
  { acked := -1, lo := 0, hi := 0, since := fun _ => [], retransmitted := fun _ => false,
    settled := 0, returned := 0 }

/-- The runs of a board beside its ledger. -/
def scoring (junk : ℕ → ℕ → ScoreBoardNode) (size : ℕ) :
    Machine (ScoreBoard × Ledger) ScoreBoardCall ScoreBoardError :=
  ((circular junk size).withHistory emptyLedger (Ledger.record junk)).restrict Ledger.Legal

/-- The ring and the ledger agree, and the first entry is the one behind the ACK. -/
structure Recorded (sb : ScoreBoard) (g : Ledger) : Prop where
  keeps : sb.Keeps g
  acked : -1 ≤ g.acked
  lo : sb.length ≠ 0 → (g.lo : ℤ) = g.acked + 1
  returned : g.returned = g.settled

/-- The packet numbers that a header names have a bound. -/
theorem exists_bound (n : ℕ) (lastAck : ℤ) (blocks : List (ℤ × ℤ)) :
    ∃ R : ℕ, n ≤ R ∧ lastAck + 2 ≤ R ∧ ∀ s ∈ blocks, s.2 ≤ (R : ℤ) := by
  induction blocks with
  | nil => exact ⟨n + (lastAck + 2).toNat, by omega, by omega, by simp⟩
  | cons s blocks ih =>
    obtain ⟨R, hn, hack, hR⟩ := ih
    refine ⟨R + s.2.toNat, by omega, by omega, List.forall_mem_cons.mpr ⟨by omega, fun b hb => ?_⟩⟩
    exact (hR b hb).trans (by omega)

namespace Recorded

variable {p : ScoreBoard × Ledger} {c : ScoreBoardCall}

/-- A call succeeds and keeps the ring and the ledger together, unless it does not fit. -/
theorem step (h : Recorded p.1 p.2) (junk : ℕ → ℕ → ScoreBoardNode) (hl : Ledger.Legal p c) :
    (∃ r, c.run junk p.1 = .ok r ∧ Recorded r.1 (Ledger.record junk p.1 c r.1 p.2)) ∨
      c.run junk p.1 = .error .intOverflow ∧ ¬ Ledger.Fits p c := by
  cases c with
  | updateScoreBoard lastAck blocks =>
    have hstep : ∀ R : ℕ, p.2.hi ≤ R → lastAck + 2 ≤ R → (∀ s ∈ blocks, s.2 ≤ (R : ℤ)) →
        ScoreBoard.Yields (p.1.updateScoreBoard junk lastAck blocks)
          (R + (max (p.1.sbsize : ℤ) (2 * (R - lastAck + 1))).toNat) fun r : ScoreBoard × ℕ =>
          Recorded r.1 { p.2.update lastAck blocks with returned := p.2.returned + r.2 } := by
      intro R hhi hack hR
      obtain ⟨hacked, -⟩ := p.2.update_acked lastAck blocks
      have hsize := h.keeps.updateScoreBoard junk h.lo h.acked hl hR hhi hack
        (S := (max (p.1.sbsize : ℤ) (2 * (R - lastAck + 1))).toNat) (by omega) (by omega)
      refine hsize.imp_left fun ⟨r, hok, hk, hlo, hd⟩ => ⟨r, hok, ⟨hk.size, hk.length, hk.room,
          hk.first, hk.shows⟩, ?_, ?_, ?_⟩
      · change -1 ≤ (p.2.update lastAck blocks).acked
        rw [hacked]
        exact h.acked.trans hl
      · change r.1.length ≠ 0 → ((p.2.update lastAck blocks).lo : ℤ) =
          (p.2.update lastAck blocks).acked + 1
        rwa [hacked]
      · change p.2.returned + r.2 = (p.2.update lastAck blocks).settled
        rw [h.returned, ← hd, Nat.add_comm]
    obtain ⟨R, hhi, hack, hR⟩ := exists_bound p.2.hi lastAck blocks
    rcases hstep R hhi hack hR with ⟨r, hok, hr⟩ | ⟨he, -⟩
    · refine .inl ⟨r, hok, ?_⟩
      change Recorded r.1 { p.2.update lastAck blocks with
        returned := p.2.returned +
          (p.1.updateScoreBoard junk lastAck blocks).toOption.elim 0 Prod.snd }
      rw [hok]
      exact hr
    · refine .inr ⟨he, fun ⟨R, hhi, hack, hR, hfit⟩ => ?_⟩
      rcases hstep R hhi hack hR with ⟨r, hok, -⟩ | ⟨-, hover⟩
      · exact absurd (hok.symm.trans he) (by simp)
      · omega
  | retransmit sndNxt =>
    left
    rw [ScoreBoardCall.run]
    change ∃ r : ScoreBoard × ℕ, _ ∧ Recorded r.1 (if p.1.getNextRetran = -1 then p.2 else
      p.2.mark p.1.getNextRetran.toNat)
    rcases h.keeps.getNextRetran with ⟨hn, -⟩ | ⟨i, hi, hlo, hhi, hs, -⟩
    · rw [if_pos hn, if_pos hn]
      exact ⟨_, rfl, h⟩
    · have hne : p.1.getNextRetran ≠ -1 := by omega
      rw [if_neg hne, if_neg hne, hi]
      exact ⟨_, rfl, h.keeps.markRetran hlo hhi hs sndNxt, h.acked, h.lo, h.returned⟩
  | clearScoreBoard =>
    exact .inl ⟨_, rfl, h.keeps.clearScoreBoard, h.acked, fun hne => absurd rfl hne, h.returned⟩

end Recorded

theorem scoring_invariant {junk : ℕ → ℕ → ScoreBoardNode} {size : ℕ} (hsize : 2 ≤ size) :
    (scoring junk size).Invariant fun p => Recorded p.1 p.2 where
  init p hi := by
    obtain ⟨⟨-, hl, hs⟩, hg⟩ := hi
    rw [hg]
    refine ⟨⟨hs ▸ hsize, by rw [hl]; rfl, by omega, fun hne => absurd hl hne, fun _ => 0,
      shows_empty⟩, le_rfl, fun hne => absurd hl hne, rfl⟩
  step p c p' h he hs := by
    obtain ⟨hs, hg⟩ := (Machine.withHistory_step_iff emptyLedger).mp hs
    have hs : (c.run junk p.1).map Prod.fst = .ok p'.1 := hs
    rcases h.step junk he.2 with ⟨⟨sb', d⟩, hok, hr⟩ | ⟨herr, -⟩
    · rw [hok] at hs
      obtain rfl : sb' = p'.1 := Except.ok.inj hs
      exact hg ▸ hr
    · rw [herr] at hs
      exact absurd hs (by simp [Except.map])

/-- From a board of at least two entries on, whatever a sender calls with cumulative ACKs that do
not decrease: a call succeeds, unless a sum of type `int` overflows, which it does not as long as
the call fits; the entries from `first_` on lie at the index that is their packet number modulo the
size, and the first is the one behind the ACK; an entry is SACKed if and only if some block
reported since it was created covers it; `GetNextRetran` yields the least entry that is neither
SACKed nor retransmitted, or `-1` if there is none; and the values returned sum up to the number of
retransmitted entries that were later acked or SACKed. -/
theorem scoreBoard_entries {junk : ℕ → ℕ → ScoreBoardNode} {size : ℕ} (hsize : 2 ≤ size)
    {p : ScoreBoard × Ledger} (h : (scoring junk size).Reachable p) :
    (∀ c, Ledger.Legal p c →
      (∃ r, c.run junk p.1 = .ok r ∧
        (scoring junk size).Reachable (r.1, Ledger.record junk p.1 c r.1 p.2)) ∨
      c.run junk p.1 = .error .intOverflow ∧ ¬ Ledger.Fits p c) ∧
    (p.2.lo + p.1.length = p.2.hi ∧
      (p.1.length ≠ 0 → p.1.first = p.2.lo ∧ (p.1.first : ℤ) = p.2.acked + 1) ∧
      ∀ i, p.2.lo ≤ i → i < p.2.hi →
        (p.1.cells (i % p.1.sbsize)).seqNo = i ∧
        (p.1.cells (i % p.1.sbsize)).ackFlag = false ∧
        ((p.1.cells (i % p.1.sbsize)).sackFlag = true ↔
          ∃ s ∈ p.2.since i, s.1 ≤ i ∧ (i : ℤ) < s.2) ∧
        ((p.1.cells (i % p.1.sbsize)).retran = true ↔
          p.2.retransmitted i = true ∧ p.2.sacked i = false)) ∧
    ((p.1.getNextRetran = -1 ∧
        ∀ i, p.2.lo ≤ i → i < p.2.hi → p.2.sacked i = true ∨ p.2.retransmitted i = true) ∨
      ∃ i : ℕ, p.1.getNextRetran = i ∧ p.2.lo ≤ i ∧ i < p.2.hi ∧ p.2.sacked i = false ∧
        p.2.retransmitted i = false ∧
        ∀ j, p.2.lo ≤ j → j < i → p.2.sacked j = true ∨ p.2.retransmitted j = true) ∧
    p.2.returned = p.2.settled := by
  have hr := (scoring_invariant hsize).reachable h
  refine ⟨fun c hl => ?_, ⟨hr.keeps.length, fun hne => ?_, fun i hlo hhi => ?_⟩,
    hr.keeps.getNextRetran, hr.returned⟩
  · refine (hr.step junk hl).imp_left fun ⟨r, hok, _⟩ => ⟨r, hok, h.step ⟨trivial, hl⟩ ?_⟩
    refine (Machine.withHistory_step_iff emptyLedger).mpr ⟨?_, rfl⟩
    change (c.run junk p.1).map Prod.fst = _
    rw [hok]
    rfl
  · rw [hr.keeps.first hne]
    exact ⟨rfl, hr.lo hne⟩
  · obtain ⟨nxt, hs⟩ := hr.keeps.shows
    rw [hs.cell i hlo hhi]
    refine ⟨rfl, rfl, ?_, ?_⟩
    · change (p.2.since i).any (covers · i) = true ↔ _
      simp [covers]
    · change (p.2.retransmitted i && !p.2.sacked i) = true ↔ _
      simp

instance {junk : ℕ → ℕ → ScoreBoardNode} {size : ℕ} (p : ScoreBoard × Ledger)
    (c : ScoreBoardCall) : Decidable ((scoring junk size).Enabled p c) :=
  inferInstanceAs (Decidable (True ∧ Ledger.Legal p c))

/-- A board whose memory holds what a ring of stale entries would. -/
def freshScoreBoard (size : ℕ) : ScoreBoard × Ledger :=
  ({ first := 0, length := 0, sbsize := size, changed := 0,
     cells := fun i => ⟨i + 7, true, true, true, 0⟩ }, emptyLedger)

def staleNodes : ℕ → ℕ → ScoreBoardNode := fun _ i => ⟨i, true, false, true, 0⟩

theorem freshScoreBoard_init (size : ℕ) :
    (scoring staleNodes size).Init (freshScoreBoard size) := ⟨⟨rfl, rfl, rfl⟩, rfl⟩

/-- The ring of two is resized, and a retransmission is acked later. -/
theorem scoreBoard_entries_resized : ∃ p, (scoring staleNodes 2).Reachable p ∧ p.1.sbsize = 16 ∧
    p.1.getNextRetran = 6 ∧ p.2.returned = 1 ∧ p.2.returned = p.2.settled := by
  obtain ⟨p, h, hp⟩ := (Machine.Reachable.init (freshScoreBoard_init 2)).exists_of_exec
    [.updateScoreBoard 3 [(5, 6)], .retransmit none, .updateScoreBoard 5 [(9, 12)]]
    (fun p => p.1.sbsize = 16 ∧ p.1.getNextRetran = 6 ∧ p.2.returned = 1) (by decide +kernel)
  obtain ⟨hs, hn, hret⟩ := of_decide_eq_true hp
  exact ⟨p, h, hs, hn, hret, (scoreBoard_entries le_rfl h).2.2.2⟩

/-- On a board of one entry, the first block stops the run, and near the greatest `int`, a sum
overflows. -/
theorem scoreBoard_entries_stops :
    (∃ p, (scoring staleNodes 1).Reachable p ∧ Ledger.Legal p (.updateScoreBoard 0 [(2, 3)]) ∧
      ScoreBoardCall.run staleNodes p.1 (.updateScoreBoard 0 [(2, 3)]) = .error .tooLarge) ∧
    ∃ p, (scoring staleNodes 64).Reachable p ∧
      Ledger.Legal p (.updateScoreBoard (2 ^ 31 - 50) [(2 ^ 31 - 40, 2 ^ 31 - 30)]) ∧
      ScoreBoardCall.run staleNodes p.1
        (.updateScoreBoard (2 ^ 31 - 50) [(2 ^ 31 - 40, 2 ^ 31 - 30)]) = .error .intOverflow := by
  refine ⟨⟨freshScoreBoard 1, .init (freshScoreBoard_init 1), ?_, ?_⟩,
    ⟨freshScoreBoard 64, .init (freshScoreBoard_init 64), ?_, ?_⟩⟩
  · change (-1 : ℤ) ≤ 0
    decide
  · rfl
  · change (-1 : ℤ) ≤ 2 ^ 31 - 50
    decide
  · rfl

end Ns2XPass
