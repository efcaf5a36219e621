import Mathlib.Data.Rat.Defs
import Mathlib.Algebra.Order.Field.Rat
import Mathlib.Tactic.Linarith
import Ns2XPass.Library.Except
import Ns2XPass.Library.Machine
import Ns2XPass.Library.Ring

/-! # The send times of a TCP sender

The time at which a packet is sent is kept in a ring that grows with the packets
in flight. It grows from the last acknowledged packet on, which has the number
minus one before the first acknowledgement.
-/

namespace Ns2XPass

inductive TssError
  | index
  | noMemory
  deriving DecidableEq

structure TssSettings where
  bugfixTs : Bool
  syn : Bool
  maxConnects : ℤ

structure TssState where
  highestAck : ℤ
  maxseq : ℤ
  tss : Option (ℕ → ℚ)
  tssSize : ℕ
  synConnects : ℤ

namespace TssState

/-- The state of a new agent after its first reset. -/
def init : TssState where
  highestAck := -1
  maxseq := -1
  tss := none
  tssSize := 100
  synConnects := 0

/-- `x % size` as an index. -/
def slot (x : ℤ) (size : ℕ) : Except TssError ℕ :=
  if 0 ≤ x.tmod size ∧ x.tmod size < size then .ok (x.tmod size).toNat else .error .index

/-- The loop that fills a table of the double size. -/
def rehash (highestAck : ℤ) (size : ℕ) (tss : ℕ → ℚ) : Except TssError (ℕ → ℚ) :=
  (List.range size).foldlM (fun ntss (i : ℕ) => do
    let j ← slot (highestAck + i) (size * 2)
    let k ← slot (highestAck + i) size
    pure (Function.update ntss j (tss k))) fun _ => 0

/-- The number is out of nine tenths of the table. -/
def Grows (s : TssState) (seqno : ℤ) : Prop := 9 * (s.tssSize : ℤ) < 10 * (seqno - s.highestAck)

instance (s : TssState) (seqno : ℤ) : Decidable (s.Grows seqno) :=
  inferInstanceAs (Decidable (_ < _))

/-- The table in which `output` stores a time. No memory is allocated for a size that is
not an `int`. -/
def grow (cfg : TssSettings) (s : TssState) (seqno : ℤ) : Except TssError TssState :=
  if cfg.bugfixTs then
    let tss := s.tss.getD fun _ => 0
    if s.Grows seqno then
      if s.tssSize * 2 < 2 ^ 31 then do
        let ntss ← rehash s.highestAck s.tssSize tss
        pure { s with tss := some ntss, tssSize := s.tssSize * 2 }
      else .error .noMemory
    else .ok { s with tss := some tss }
  else .ok s

/-- The time is stored, if there is a table. -/
def store (s : TssState) (seqno : ℤ) (now : ℚ) : Except TssError TssState :=
  match s.tss with
  | none => .ok s
  | some tss => do
    let j ← slot seqno s.tssSize
    pure { s with tss := some (Function.update tss j now) }

/-- Too many attempts to open the connection have been made. -/
def Aborts (cfg : TssSettings) (s : TssState) (seqno : ℤ) : Prop :=
  seqno = 0 ∧ cfg.syn = true ∧ 0 < cfg.maxConnects ∧ cfg.maxConnects < s.synConnects + 1

instance (cfg : TssSettings) (s : TssState) (seqno : ℤ) : Decidable (s.Aborts cfg seqno) :=
  inferInstanceAs (Decidable (_ ∧ _))

/-- `output` as far as it uses the table. -/
def output (cfg : TssSettings) (s : TssState) (seqno : ℤ) (now : ℚ) :
    Except TssError TssState := do
  let s ← s.grow cfg seqno
  let s ← s.store seqno now
  let connects := if seqno = 0 ∧ cfg.syn = true then s.synConnects + 1 else s.synConnects
  if s.Aborts cfg seqno then pure { s with synConnects := connects }
  else pure { s with
    synConnects := connects
    maxseq := if s.maxseq < seqno then seqno else s.maxseq }

/-- `reset` keeps the table. -/
def reset (s : TssState) : TssState := { s with highestAck := -1, maxseq := -1 }

end TssState

inductive TssCall
  | output (seqno : ℤ) (now : ℚ)
  | ack (ackno : ℤ)
  | reset

namespace TssCall

variable {cfg : TssSettings}

def Enabled (s : TssState) : TssCall → Prop
  | output seqno _ => s.highestAck < seqno ∧ seqno ≤ s.maxseq + 1
  | ack ackno => s.highestAck ≤ ackno ∧ ackno ≤ s.maxseq
  | reset => True

instance (s : TssState) : DecidablePred (Enabled s)
  | output _ _ | ack _ => inferInstanceAs (Decidable (_ ∧ _))
  | reset => isTrue trivial

/-- The table does not grow before the first acknowledgement, and no time is stored for a
packet that has been sent and is then not sent again. -/
def Keeps (cfg : TssSettings) (s : TssState) : TssCall → Prop
  | output seqno _ => (s.Grows seqno → 0 ≤ s.highestAck) ∧
      (s.Aborts cfg seqno → s.maxseq < seqno)
  | ack _ | reset => True

instance (s : TssState) : DecidablePred (Keeps cfg s)
  | output _ _ => inferInstanceAs (Decidable ((_ → _) ∧ (_ → _)))
  | ack _ | reset => isTrue trivial

def apply (cfg : TssSettings) (s : TssState) : TssCall → Except TssError TssState
  | output seqno now => s.output cfg seqno now
  | ack ackno => .ok { s with highestAck := ackno }
  | reset => .ok s.reset

/-- The times at which packets have been sent last. -/
def record (cfg : TssSettings) (s : TssState) (c : TssCall) (_ : TssState) (last : ℕ → ℚ) :
    ℕ → ℚ :=
  match c with
  | output seqno now =>
    if s.Aborts cfg seqno then last else Function.update last seqno.toNat now
  | ack _ | reset => last

end TssCall

namespace TssState

variable {cfg : TssSettings} {s s' : TssState} {seqno : ℤ} {now : ℚ} {last : ℕ → ℚ}

/-! ### Indices -/

theorem slot_of_nonneg {x : ℤ} {size : ℕ} (hx : 0 ≤ x) (hs : 0 < size) :
    slot x size = .ok (x.toNat % size) := by
  have hs' : (0 : ℤ) < size := by exact_mod_cast hs
  have hnonneg := Int.emod_nonneg x hs'.ne'
  have hlt := Int.emod_lt_of_pos x hs'
  unfold slot
  rw [Int.tmod_eq_emod_of_nonneg hx, if_pos ⟨hnonneg, hlt⟩, Int.toNat_emod hx hs'.le,
    Int.toNat_natCast]

theorem rehash_eq {highestAck : ℤ} {size : ℕ} {tss : ℕ → ℚ} (ha : 0 ≤ highestAck)
    (hs : 0 < size) :
    rehash highestAck size tss = .ok ((List.range' highestAck.toNat size).foldl
      (fun c i => Function.update c (i % (size * 2)) (tss (i % size))) fun _ => 0) := by
  have hstep : (fun (ntss : ℕ → ℚ) (i : ℕ) => (do
      let j ← slot (highestAck + i) (size * 2)
      let k ← slot (highestAck + i) size
      pure (Function.update ntss j (tss k)) : Except TssError (ℕ → ℚ))) =
      fun ntss i => pure (Function.update ntss ((highestAck.toNat + i) % (size * 2))
        (tss ((highestAck.toNat + i) % size))) := by
    funext ntss i
    have hi : (highestAck + i).toNat = highestAck.toNat + i := by omega
    rw [slot_of_nonneg (by omega) (by omega), slot_of_nonneg (by omega) hs, hi]
    rfl
  unfold rehash
  rw [hstep, List.foldlM_pure, List.range'_eq_map_range, List.foldl_map]
  rfl

/-- Before the first acknowledgement the loop starts at the index minus one. -/
theorem rehash_negative {size : ℕ} (tss : ℕ → ℚ) (hs : 1 < size) :
    rehash (-1) size tss = .error .index := by
  obtain ⟨n, rfl⟩ := Nat.exists_eq_add_of_lt hs
  have hslot : slot (-1 + (0 : ℕ)) ((1 + n + 1) * 2) = .error .index := by
    have hlt : ((1 : ℤ)).tmod ((1 + n + 1) * 2 : ℕ) = 1 := by
      rw [Int.tmod_eq_emod_of_nonneg (by norm_num)]
      exact Int.emod_eq_of_lt (by norm_num) (by push_cast; omega)
    unfold slot
    rw [if_neg]
    rintro ⟨h, _⟩
    change 0 ≤ (-1 : ℤ).tmod _ at h
    rw [Int.neg_tmod, hlt] at h
    omega
  unfold rehash
  rw [List.range_succ_eq_map, List.foldlM_cons, hslot]
  rfl

/-! ### The ring -/

/-- The cells of the table, which are zero as long as it is not allocated. -/
def cells (s : TssState) : ℕ → ℚ := s.tss.getD fun _ => 0

/-- The first packet that is not acknowledged, and the first that has not been sent. -/
def lo (s : TssState) : ℕ := (s.highestAck + 1).toNat

def hi (s : TssState) : ℕ := (s.maxseq + 1).toNat

/-- The table shows the last send time of each packet in flight. -/
structure Sound (s : TssState) (last : ℕ → ℚ) : Prop where
  ack_ge : -1 ≤ s.highestAck
  ack_le : s.highestAck ≤ s.maxseq
  size_ge : 100 ≤ s.tssSize
  room : 10 * (s.maxseq - s.highestAck) ≤ 9 * s.tssSize
  shows : Shows s.cells s.tssSize last s.lo s.hi

/-- A table that grows after the first acknowledgement takes over the packets in flight, and
has room for one more. -/
theorem Sound.grow (hb : cfg.bugfixTs = true) (h : s.Sound last) (hle : seqno ≤ s.maxseq + 1)
    (hg : s.Grows seqno → 0 ≤ s.highestAck) :
    (∃ tss size, s.grow cfg seqno = .ok { s with tss := some tss, tssSize := size } ∧
      10 * (seqno - s.highestAck) ≤ 9 * size ∧
      Sound { s with tss := some tss, tssSize := size } last) ∨
      s.grow cfg seqno = .error .noMemory := by
  obtain ⟨hge, hack, hsize, hroom, hshows⟩ := h
  unfold TssState.grow
  rw [if_pos hb]
  dsimp only
  split
  · next hgrow =>
    have ha := hg hgrow
    split
    · left
      rw [rehash_eq ha (by omega)]
      refine ⟨_, _, rfl, by push_cast; omega, hge, hack, by dsimp only; omega,
        by dsimp only; push_cast; omega, ?_⟩
      change Shows _ _ _ s.lo s.hi
      have hcopy : Shows ((List.range' s.highestAck.toNat
          (s.highestAck.toNat + s.tssSize - s.highestAck.toNat)).foldl (fun c i =>
            Function.update c (i % (s.tssSize * 2)) (s.cells (i % s.tssSize))) fun _ => 0)
          (s.tssSize * 2) (fun i => s.cells (i % s.tssSize)) s.highestAck.toNat
          (s.highestAck.toNat + s.tssSize) := shows_copy (by omega) (by omega) fun _ _ _ => rfl
      rw [Nat.add_sub_cancel_left] at hcopy
      have hlo : s.highestAck.toNat ≤ s.lo := by unfold lo; omega
      have hhi : s.hi ≤ s.highestAck.toNat + s.tssSize := by unfold hi; omega
      exact (hcopy.mono hlo hhi).congr fun i hi hi' => hshows.cell i hi hi'
    · exact .inr rfl
  · next hfits =>
    have hroom' : 10 * (seqno - s.highestAck) ≤ 9 * s.tssSize := not_lt.mp hfits
    exact .inl ⟨_, _, rfl, hroom', hge, hack, hsize, hroom, hshows⟩

/-- A time is stored for a packet in flight or for the next one. -/
theorem Sound.stored (now : ℚ) (h : s.Sound last) (hlt : s.highestAck < seqno)
    (hle : seqno ≤ s.maxseq + 1) (hroom : 10 * (seqno - s.highestAck) ≤ 9 * s.tssSize) :
    Shows (Function.update s.cells (seqno.toNat % s.tssSize) now) s.tssSize
      (Function.update last seqno.toNat now) s.lo
      ((if s.maxseq < seqno then seqno else s.maxseq) + 1).toNat := by
  obtain ⟨hge, hack, hsize, hroom', hshows⟩ := h
  have hlo : s.lo ≤ seqno.toNat := by unfold lo; omega
  split
  · next hnew =>
    have hhi : s.hi = seqno.toNat := by unfold hi; omega
    have hnext : (seqno + 1).toNat = seqno.toNat + 1 := by omega
    have hold : Shows s.cells s.tssSize (Function.update last seqno.toNat now) s.lo
        seqno.toNat := by
      refine (hhi ▸ hshows).congr fun i _ hi => ?_
      rw [Function.update_of_ne hi.ne]
    have hext := hold.extend hlo (by unfold lo; omega)
    rw [Function.update_self] at hext
    rw [hnext]
    exact hext
  · next hold => exact hshows.write hlo (by unfold hi; omega) now

/-- A call of `output` that keeps the table, or that finds no memory. -/
theorem Sound.output (now : ℚ) (hb : cfg.bugfixTs = true) (h : s.Sound last)
    (hlt : s.highestAck < seqno) (hle : seqno ≤ s.maxseq + 1)
    (hg : s.Grows seqno → 0 ≤ s.highestAck) (ha : s.Aborts cfg seqno → s.maxseq < seqno) :
    (∃ s', s.output cfg seqno now = .ok s' ∧ s'.tss.isSome ∧
      s'.Sound (if s.Aborts cfg seqno then last else Function.update last seqno.toNat now)) ∨
      s.output cfg seqno now = .error .noMemory := by
  rcases h.grow hb hle hg with ⟨tss, size, hgrow, hroom, hs⟩ | herr
  · left
    have hge := h.ack_ge
    have hsize : 100 ≤ size := hs.size_ge
    have hslot : slot seqno size = .ok (seqno.toNat % size) :=
      slot_of_nonneg (by omega) (by omega)
    have hshows := hs.stored now hlt hle hroom
    unfold TssState.output store
    rw [hgrow]
    simp only [bind, Except.bind, hslot, pure, Except.pure]
    split
    · next habort =>
      -- the connection is given up before anything has been sent
      have hnew := ha habort
      have hsyn := habort.1
      have hack := h.ack_le
      have hempty : s.hi = s.lo := by unfold hi lo; omega
      refine ⟨_, rfl, rfl, hge, hack, hsize, hs.room, ?_⟩
      change Shows _ _ _ s.lo s.hi
      rw [hempty]
      exact shows_empty
    · next hsent =>
      rw [if_neg (show ¬ s.Aborts cfg seqno from hsent)]
      refine ⟨_, rfl, rfl, hge, ?_, hsize, ?_, hshows⟩
      · have hack := h.ack_le
        dsimp only
        split <;> omega
      · have hold := hs.room
        dsimp only at hold ⊢
        split <;> omega
  · right
    unfold TssState.output
    rw [herr]
    rfl

end TssState

/-! ### Runs -/

open TssState

variable {cfg : TssSettings}

def tssRuns (cfg : TssSettings) : Machine TssState TssCall TssError where
  Init s := s = .init
  Enabled s c := c.Enabled s
  step s c := c.apply cfg s

instance (s : TssState) (c : TssCall) : Decidable ((tssRuns cfg).Enabled s c) :=
  inferInstanceAs (Decidable (c.Enabled s))

/-- The runs, with the times at which packets have been sent last. -/
def timedRuns (cfg : TssSettings) : Machine (TssState × (ℕ → ℚ)) TssCall TssError :=
  (tssRuns cfg).withHistory (fun _ => 0) fun s c => TssCall.record cfg s c

/-- The runs whose calls keep the table. -/
def keptRuns (cfg : TssSettings) : Machine (TssState × (ℕ → ℚ)) TssCall TssError :=
  (timedRuns cfg).restrict fun p c => c.Keeps cfg p.1

instance (p : TssState × (ℕ → ℚ)) (c : TssCall) : Decidable ((timedRuns cfg).Enabled p c) :=
  inferInstanceAs (Decidable (c.Enabled p.1))

instance (p : TssState × (ℕ → ℚ)) (c : TssCall) : Decidable ((keptRuns cfg).Enabled p c) :=
  inferInstanceAs (Decidable (c.Enabled p.1 ∧ c.Keeps cfg p.1))

/-- What holds between the calls: a packet has been sent only if there is a table. -/
structure Timed (p : TssState × (ℕ → ℚ)) : Prop where
  sound : p.1.Sound p.2
  table : -1 < p.1.maxseq → p.1.tss.isSome

theorem TssCall.apply_timed (hb : cfg.bugfixTs = true) {p : TssState × (ℕ → ℚ)} {c : TssCall}
    (h : Timed p) (he : c.Enabled p.1) (hk : c.Keeps cfg p.1) :
    (∃ s', c.apply cfg p.1 = .ok s' ∧ Timed (s', c.record cfg p.1 s' p.2)) ∨
      c.apply cfg p.1 = .error .noMemory := by
  obtain ⟨s, last⟩ := p
  obtain ⟨hs, ht⟩ := h
  cases c with
  | output seqno now =>
    rcases hs.output now hb he.1 he.2 hk.1 hk.2 with ⟨s', hs', htab, hs''⟩ | herr
    · exact .inl ⟨s', hs', hs'', fun _ => htab⟩
    · exact .inr herr
  | ack ackno =>
    obtain ⟨hlow, hup⟩ := he
    obtain ⟨hge, hack, hsize, hroom, hshows⟩ := hs
    dsimp only at hlow hup hge hroom
    refine .inl ⟨_, rfl, ⟨hge.trans hlow, hup, hsize, by dsimp only; omega, ?_⟩, ht⟩
    exact hshows.mono (show (s.highestAck + 1).toNat ≤ (ackno + 1).toNat by omega) le_rfl
  | reset =>
    exact .inl ⟨_, rfl, ⟨le_rfl, le_rfl, hs.size_ge, by dsimp only [TssState.reset]; omega,
      shows_empty⟩, fun h => absurd h (lt_irrefl _)⟩

theorem keptRuns_invariant (hb : cfg.bugfixTs = true) : (keptRuns cfg).Invariant Timed where
  init := by
    rintro ⟨_, last⟩ ⟨rfl, rfl⟩
    exact ⟨⟨le_rfl, le_rfl, le_rfl, by norm_num [TssState.init], shows_empty⟩,
      fun h => absurd h (lt_irrefl _)⟩
  step := by
    rintro p c p' h ⟨he, hk⟩ hstep
    obtain ⟨hs, hrec⟩ := (Machine.withHistory_step_iff fun _ => 0).mp hstep
    rcases TssCall.apply_timed hb h he hk with ⟨s', hs', ht⟩ | herr
    · obtain rfl : p'.1 = s' := Except.ok.inj (hs.symm.trans hs')
      have hp : p' = (p'.1, c.record cfg p.1 p'.1 p.2) := Prod.ext rfl hrec
      rw [hp]
      exact ht
    · exact nomatch hs.symm.trans herr

/-- In every run in which the table does not grow before the first acknowledgement and no
packet in flight is given up while it is sent again, the table shows when each packet in flight
has been sent last, and no index is out of range. -/
theorem send_times (hb : cfg.bugfixTs = true) {p : TssState × (ℕ → ℚ)}
    (h : (keptRuns cfg).Reachable p) :
    (∀ s : ℤ, p.1.highestAck < s → s ≤ p.1.maxseq → ∃ tss i, p.1.tss = some tss ∧
      slot s p.1.tssSize = .ok i ∧ i < p.1.tssSize ∧ tss i = p.2 s.toNat) ∧
      ∀ c, (keptRuns cfg).Enabled p c → (keptRuns cfg).step p c ≠ .error .index := by
  obtain ⟨hs, ht⟩ := (keptRuns_invariant hb).reachable h
  have hsize := hs.size_ge
  refine ⟨fun s hlow hup => ?_, fun c hc => ?_⟩
  · have hge := hs.ack_ge
    obtain ⟨tss, htss⟩ := Option.isSome_iff_exists.mp (ht (by omega))
    have hcell := hs.shows.cell s.toNat (by unfold lo; omega) (by unfold hi; omega)
    have hcells : p.1.cells = tss := by unfold cells; rw [htss]; rfl
    exact ⟨tss, _, htss, slot_of_nonneg (by omega) (by omega), Nat.mod_lt _ (by omega),
      hcells ▸ hcell⟩
  · have happly : (keptRuns cfg).step p c =
        (c.apply cfg p.1).map fun s' => (s', c.record cfg p.1 s' p.2) := rfl
    rw [happly]
    rcases TssCall.apply_timed hb ⟨hs, ht⟩ hc.1 hc.2 with ⟨s', hs', _⟩ | herr
    · rw [hs']; exact nofun
    · rw [herr]; exact nofun

/-- The settings of a sender without a handshake. -/
def timestamped : TssSettings where
  bugfixTs := true
  syn := false
  maxConnects := 0

/-- The first hundred packets after an acknowledgement are sent at the times 0, 1, and so on. -/
def burst (n : ℕ) : List TssCall :=
  [.output 0 0, .ack 0] ++ (List.range n).map fun i => .output (i + 1) (i + 1)

theorem send_times_grown : ∃ p : TssState × (ℕ → ℚ), (keptRuns timestamped).Reachable p ∧
    p.1.tssSize = 200 ∧ p.1.maxseq = 100 ∧ ∃ tss i, p.1.tss = some tss ∧
      slot 37 p.1.tssSize = .ok i ∧ i < p.1.tssSize ∧ tss i = p.2 37 := by
  have h₀ : (keptRuns timestamped).Reachable (.init, fun _ => 0) := .init ⟨rfl, rfl⟩
  obtain ⟨p, hr, hp⟩ := h₀.exists_of_exec (burst 100)
    (fun p => p.1.tssSize = 200 ∧ p.1.maxseq = 100 ∧ p.1.highestAck = 0) (by decide +kernel)
  obtain ⟨hsize, hmax, hack⟩ := of_decide_eq_true hp
  exact ⟨p, hr, hsize, hmax, (send_times rfl hr).1 37 (by omega) (by omega)⟩

/-- Before the first acknowledgement, the packet that the table grows for makes it read the cell
with the index minus one. -/
theorem index_negative : ∃ p : TssState × (ℕ → ℚ), (timedRuns timestamped).Reachable p ∧
    p.1.highestAck = -1 ∧ p.1.maxseq = 89 ∧ TssCall.Enabled p.1 (.output 90 90) ∧
    (timedRuns timestamped).step p (.output 90 90) = .error .index := by
  have h₀ : (timedRuns timestamped).Reachable (.init, fun _ => 0) := .init ⟨rfl, rfl⟩
  obtain ⟨p, hr, hp⟩ := h₀.exists_of_exec ((List.range 90).map fun i => .output i i)
    (fun p => p.1.highestAck = -1 ∧ p.1.maxseq = 89 ∧ p.1.tssSize = 100) (by decide +kernel)
  obtain ⟨hack, hmax, hsize⟩ := of_decide_eq_true hp
  refine ⟨p, hr, hack, hmax, ⟨by omega, by omega⟩, ?_⟩
  have hgrows : p.1.Grows 90 := by unfold Grows; omega
  have houtput : p.1.output timestamped 90 90 = .error .index := by
    unfold TssState.output TssState.grow
    rw [if_pos (show timestamped.bugfixTs = true from rfl)]
    dsimp only
    rw [if_pos hgrows, if_pos (by omega), hack, rehash_negative _ (by omega)]
    rfl
  change (p.1.output timestamped 90 90).map _ = _
  rw [houtput]
  rfl

end Ns2XPass
