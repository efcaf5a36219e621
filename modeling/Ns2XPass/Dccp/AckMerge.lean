import Ns2XPass.Dccp.AckWalks

/-! # The merge of two ack vectors

The packets of one vector are added to another one, from the oldest on. The
states are merged as described, as long as there is space, but a merge into a
vector with packets never reports success.
-/

namespace Ns2XPass

variable {a b v : AckVector} {items its : List ℕ} {n q t : ℕ} {s : PacketState}
  {l : List (ℕ × PacketState)} {w : PacketWalk} {g : ℕ → ℕ → ℕ}

namespace AckVector

/-- The loop of `mergeWith`, which goes on as long as the number of steps allows. -/
def mergeFrom (junk : ℕ → ℕ → ℕ) (ackv : AckVector) (result : Bool) :
    ℕ → PacketWalk → AckVector → Option (AckVector × Bool)
  | 0, _, _ => none
  | n + 1, w, v =>
    match ackv.prevPacket w with
    | none => some (v, result)
    | some ((seqnum, state), w) =>
      let r := v.addPacket junk seqnum state
      if r.2 = false ∧ r.1.seqTail ≤ seqnum then some (r.1, false)
      else mergeFrom junk ackv result n w r.1

/-- `NULL` is `none`. The merge fails with `none` when the loop does not end. -/
def mergeWith (junk : ℕ → ℕ → ℕ) (v : AckVector) : Option AckVector → Option (AckVector × Bool)
  | none => some (v, false)
  | some ackv =>
    if ackv.size = 0 then some (v, true)
    else if v.size = 0 then
      match ackv.getAckVector ackv.size with
      | none => some (v, false)
      | some vect => some (setAckVector junk vect ackv.seqHead ackv.ene doublings v)
    else
      mergeFrom junk ackv false (ackv.seqHead + 2 - ackv.seqTail) ackv.startReversePacketWalk v

/-- Each packet that is not older than the oldest one can be added. -/
def Admitted (junk : ℕ → ℕ → ℕ) : List (ℕ × PacketState) → AckVector → Prop
  | [], _ => True
  | (seqnum, state) :: l, v =>
    (v.seqTail ≤ seqnum → (v.addPacket junk seqnum state).2 = true) ∧
      Admitted junk l (v.addPacket junk seqnum state).1

/-- There is space for the packets of both vectors. -/
def Fits (junk : ℕ → ℕ → ℕ) (a b : AckVector) : Prop :=
  a.size ≠ 0 → b.size ≠ 0 → Admitted junk b.packets.reverse a

/-- The state of a packet behind a merge: of a number below the oldest one nothing is known, and
between the vectors nothing has been received. -/
def merged (a b : AckVector) (q : ℕ) : Option PacketState :=
  if a.size = 0 then b.getState q
  else
    match a.getState q, b.getState q with
    | some x, some y => some (a.ackvCons x y)
    | some x, none => some x
    | none, y => if b.size ≠ 0 ∧ a.seqHead < q ∧ q ≤ b.seqHead then some (y.getD .notRecv) else none

/-- What a merge is to do: it succeeds and merges the states if there is space, and it fails exactly
if there is no other vector or too little space. -/
structure Merges (junk : ℕ → ℕ → ℕ) (a : AckVector) (b : Option AckVector)
    (r : Option (AckVector × Bool)) : Prop where
  succeeds : ∀ w ∈ b, Fits junk a w → ∃ v, r = some (v, true) ∧ ∀ q, v.getState q = merged a w q
  fails : (∃ v, r = some (v, false)) ↔ b = none ∨ ∃ w ∈ b, ¬ Fits junk a w

/-- The packets of a vector below a number have been added. -/
structure MergedTo (a b : AckVector) (t : ℕ) (v : AckVector) : Prop where
  valid : ∃ items, items ≠ [] ∧ v.Valid items
  seqTail : v.seqTail = a.seqTail
  ackvCons : v.ackvCons = a.ackvCons
  seqHead : v.seqHead = a.seqHead ∧ (t ≤ a.seqHead + 1 ∨ t = b.seqTail) ∨
    a.seqHead < v.seqHead ∧ v.seqHead + 1 = t
  known : ∀ q x, a.map q = some x →
    v.map q = some (((if q < t then b.map q else none).map (a.ackvCons x)).getD x)
  unknown : ∀ q, a.map q = none → v.map q =
    if a.seqHead < q ∧ q ≤ v.seqHead then some ((b.map q).getD .notRecv) else none

/-- Below the tail there are no packets. -/
theorem Valid.map_below (h : b.Valid items) (hlt : q < b.seqTail) : b.map q = none := by
  by_contra hne
  obtain ⟨-, hlo, -⟩ := h.isSome_map.mp (Option.isSome_iff_ne_none.mpr hne)
  omega

namespace MergedTo

section

variable {as bs : List ℕ} (ha : a.Valid as) (hb : b.Valid bs)
include ha hb

theorem start (hne : as ≠ []) : MergedTo a b b.seqTail a where
  valid := ⟨as, hne, ha⟩
  seqTail := rfl
  ackvCons := rfl
  seqHead := .inl ⟨rfl, .inr rfl⟩
  known q x hq := by
    have hnone : (if q < b.seqTail then b.map q else none) = none := by
      split_ifs with hlt
      · exact hb.map_below hlt
      · rfl
    rw [hq, hnone]
    rfl
  unknown q hq := by
    rw [hq, if_neg (by omega)]

/-- A newer packet leaves those between it and the newest one as not received. -/
theorem newer (h : MergedTo a b t v) (hv : v.Valid items) (hlt : v.seqHead < t)
    (hs : b.map t = some s) {w : AckVector} (hw : Moved v w its t)
    (he : expand its = s :: List.replicate (t - v.seqHead - 1) .notRecv ++ expand items) :
    MergedTo a b (t + 1) w := by
  have hle : a.seqHead ≤ v.seqHead := by
    rcases h.seqHead with ⟨he, -⟩ | ⟨hlt, -⟩
    · exact he.ge
    · exact hlt.le
  have hmap := hv.map_push hlt hw he
  have hne : its ≠ [] := by
    rintro rfl
    exact absurd he (by simp)
  refine ⟨⟨its, hne, hw.valid⟩, hw.seqTail.trans h.seqTail, hw.ackvCons.trans h.ackvCons,
    .inr ⟨by rw [hw.seqHead]; omega, by rw [hw.seqHead]⟩, fun q x hq => ?_, fun q hq => ?_⟩
  · obtain ⟨-, -, hhi⟩ := ha.isSome_map.mp (by rw [hq]; rfl)
    have hknown := h.known q x hq
    rw [if_pos (by omega)] at hknown ⊢
    rw [hmap]
    dsimp only
    rw [if_neg (by omega), if_neg (by omega), hknown]
  · rw [hmap, hw.seqHead]
    dsimp only
    split_ifs with hqt hgap hin hin
    · subst hqt
      rw [hs]
      rfl
    · omega
    · rw [hb.map_below]
      · rfl
      · rcases h.seqHead with ⟨-, hle | he⟩ | ⟨-, he⟩
        · omega
        · omega
        · omega
    · omega
    · rw [h.unknown q hq, if_pos (by omega)]
    · rw [h.unknown q hq, if_neg (by omega)]

end

/-- The state of a packet of both vectors is combined. -/
theorem both (h : MergedTo a b t v) (hle : t ≤ v.seqHead) {x : PacketState}
    (hx : a.map t = some x) (hs : b.map t = some s) {w : AckVector} (hw : Moved v w its v.seqHead)
    (hne : its ≠ []) (hmap : w.map = Function.update v.map t (some (v.ackvCons x s))) :
    MergedTo a b (t + 1) w := by
  refine ⟨⟨its, hne, hw.valid⟩, hw.seqTail.trans h.seqTail, hw.ackvCons.trans h.ackvCons, ?_,
    fun q y hq => ?_, fun q hq => ?_⟩
  · rw [hw.seqHead]
    rcases h.seqHead with ⟨he, -⟩ | ⟨-, he⟩
    · exact .inl ⟨he, .inl (by omega)⟩
    · omega
  · rw [hmap]
    by_cases hqt : q = t
    · subst hqt
      obtain rfl := Option.some.inj (hx.symm.trans hq)
      rw [Function.update_self, if_pos (Nat.lt_succ_self _), hs, h.ackvCons]
      rfl
    · rw [Function.update_of_ne hqt, h.known q y hq, if_congr (show q < t + 1 ↔ q < t by omega)
        rfl rfl]
  · have hqt : q ≠ t := by
      rintro rfl
      rw [hx] at hq
      exact absurd hq (by simp)
    rw [hmap, Function.update_of_ne hqt, h.unknown q hq, hw.seqHead]

/-- A packet that is older than the oldest one is left out. -/
theorem below (h : MergedTo a b t v) (hv : v.Valid items) (hle : t ≤ v.seqHead)
    (hx : a.map t = none) {w : AckVector} (hne : items ≠ []) (hw : w.Valid items)
    (hs : SameSeqs v w) : MergedTo a b (t + 1) w := by
  have hmap : w.map = v.map := by
    rw [hw.map_eq, hv.map_eq, hs.seqHead]
  refine ⟨⟨items, hne, hw⟩, hs.seqTail.trans h.seqTail, hs.ackvCons.trans h.ackvCons, ?_,
    fun q y hq => ?_, fun q hq => ?_⟩
  · rw [hs.seqHead]
    rcases h.seqHead with ⟨he, -⟩ | ⟨-, he⟩
    · exact .inl ⟨he, .inl (by omega)⟩
    · omega
  · have hqt : q ≠ t := by
      rintro rfl
      rw [hx] at hq
      exact absurd hq (by simp)
    rw [hmap, h.known q y hq, if_congr (show q < t + 1 ↔ q < t by omega) rfl rfl]
  · rw [hmap, h.unknown q hq, hs.seqHead]

/-- The next packet is added, or it is older than the oldest one. -/
theorem add {as bs : List ℕ} (ha : a.Valid as) (hane : as ≠ []) (hb : b.Valid bs)
    (h : MergedTo a b t v) (hs : b.map t = some s)
    (hfar : a.seqHead + maxAckvSize * (runLengthMask + 1) ≤ t + 2 ^ 32)
    (hok : v.seqTail ≤ t → (v.addPacket g t s).2 = true) :
    MergedTo a b (t + 1) (v.addPacket g t s).1 ∧
      ¬ ((v.addPacket g t s).2 = false ∧ (v.addPacket g t s).1.seqTail ≤ t) := by
  obtain ⟨items, hne, hv⟩ := h.valid
  have hspan := hv.span hne
  have hpos := total_pos hne
  have hlt32 : t < 2 ^ 32 := by
    obtain ⟨-, -, hhi⟩ := hb.isSome_map.mp (by rw [hs]; rfl)
    exact hhi.trans_lt hb.seqHead_lt
  have hin : v.seqTail ≤ t → ¬ ((v.addPacket g t s).2 = false ∧
      (v.addPacket g t s).1.seqTail ≤ t) := by
    rintro hle ⟨hf, -⟩
    rw [hok hle] at hf
    exact absurd hf (by simp)
  rcases lt_or_ge v.seqHead t with hlt | hle
  · have htail : v.seqTail ≤ t := by omega
    rcases hv.addNewer (g := g) (s := s) hne hlt hlt32 hv.doublings_suffice with
      ⟨-, its, hw, he⟩ | ⟨hf, -⟩
    · exact ⟨h.newer ha hb hv hlt hs hw he, hin htail⟩
    · exact absurd ((hok htail).symm.trans hf) (by simp)
  · have hhead : v.seqHead = a.seqHead := by
      rcases h.seqHead with ⟨he, -⟩ | ⟨-, he⟩
      · exact he
      · omega
    cases hx : a.map t with
    | some x =>
      obtain ⟨-, hlo, -⟩ := ha.isSome_map.mp (by rw [hx]; rfl)
      have hcurr := h.known t x hx
      rw [if_neg (lt_irrefl t)] at hcurr
      rcases hv.addPacket_of_some (g := g) (s := s) hne hcurr with ⟨-, its, hw, he⟩ | ⟨hf, -⟩
      · have hits : its ≠ [] := by
          rintro rfl
          have hlen := congrArg List.length he
          rw [List.length_set, length_expand, length_expand, total_nil] at hlen
          omega
        exact ⟨h.both hle hx hs hw hits (hv.map_set (by rw [hcurr]; rfl) hw he),
          hin (h.seqTail ▸ hlo)⟩
      · exact absurd ((hok (h.seqTail ▸ hlo)).symm.trans hf) (by simp)
    | none =>
      have hcurr := h.unknown t hx
      rw [if_neg (by omega)] at hcurr
      have hnot : ¬ v.Wrapped t := by
        rintro ⟨-, hw⟩
        omega
      have hlo : t < a.seqTail := by
        by_contra hge
        have hsome := ha.isSome_map.mpr ⟨hane, not_lt.mp hge, hhead ▸ hle⟩
        rw [hx] at hsome
        exact absurd hsome (by simp)
      rcases hv.addPacket_of_none (g := g) (s := s) hne hle hnot hcurr with
        ⟨-, hno⟩ | ⟨-, hw, hsame, -⟩
      · exact hno.elim
      · refine ⟨h.below hv hle hx hne hw hsame, fun hf => ?_⟩
        have := hf.2
        rw [hsame.seqTail, h.seqTail] at this
        omega

end MergedTo

/-- The loop adds packets as long as there are some, whatever the result. -/
theorem mergeFrom_false (hy : Yields b.prevPacket w l) (hn : l.length < n) :
    ∃ v', mergeFrom g b false n w v = some (v', false) := by
  induction hy generalizing n v with
  | nil hend =>
    obtain ⟨n, rfl⟩ : ∃ m, n = m + 1 := ⟨n - 1, by omega⟩
    rw [mergeFrom, hend]
    exact ⟨v, rfl⟩
  | cons hnext _ ih =>
    obtain ⟨n, rfl⟩ : ∃ m, n = m + 1 := ⟨n - 1, by omega⟩
    rw [mergeFrom, hnext]
    dsimp only
    split_ifs
    · exact ⟨_, rfl⟩
    · exact ih (by rw [List.length_cons] at hn; omega)

/-- The loop adds all packets from a number on, if there is space for them. -/
theorem mergeFrom_mergedTo {as bs : List ℕ} (ha : a.Valid as) (hane : as ≠ []) (hb : b.Valid bs)
    (hy : Yields b.prevPacket w l) (hn : l.length < n)
    (hl : ∀ i p, l[i]? = some p → p.1 = t + i ∧ b.map p.1 = some p.2)
    (hfar : a.seqHead + maxAckvSize * (runLengthMask + 1) ≤ t + 2 ^ 32)
    (hadm : Admitted g l v) (h : MergedTo a b t v) :
    ∃ v', mergeFrom g b false n w v = some (v', false) ∧ MergedTo a b (t + l.length) v' := by
  induction hy generalizing n v t with
  | nil hend =>
    obtain ⟨n, rfl⟩ : ∃ m, n = m + 1 := ⟨n - 1, by omega⟩
    rw [mergeFrom, hend]
    exact ⟨v, rfl, h⟩
  | @cons _ w' p l hnext _ ih =>
    obtain ⟨n, rfl⟩ : ∃ m, n = m + 1 := ⟨n - 1, by omega⟩
    obtain ⟨q, s⟩ := p
    obtain ⟨hq, hs⟩ := hl 0 (q, s) rfl
    obtain rfl : q = t := hq
    obtain ⟨hok, hrest⟩ := hadm
    obtain ⟨hnew, hgo⟩ := h.add (g := g) ha hane hb hs hfar hok
    rw [mergeFrom, hnext]
    dsimp only
    rw [if_neg hgo]
    rw [List.length_cons] at hn ⊢
    have hl' : ∀ i p, l[i]? = some p → p.1 = q + 1 + i ∧ b.map p.1 = some p.2 := by
      intro i p hp
      obtain ⟨hi, hs⟩ := hl (i + 1) p hp
      exact ⟨by omega, hs⟩
    obtain ⟨v', he, hm⟩ := ih (n := n) (by omega) hl' (by omega) hrest hnew
    exact ⟨v', he, by rwa [Nat.add_assoc, Nat.add_comm 1] at hm⟩

/-- The packets on the way up have consecutive numbers. -/
theorem Valid.reverse_packets (h : b.Valid items) (hne : items ≠ []) (i : ℕ)
    (p : ℕ × PacketState) (hp : b.packets.reverse[i]? = some p) :
    p.1 = b.seqTail + i ∧ b.map p.1 = some p.2 := by
  have hspan := h.span hne
  have hi := (List.getElem?_eq_some_iff.mp hp).1
  rw [List.length_reverse, h.length_packets] at hi
  rw [List.getElem?_reverse (by rw [h.length_packets]; exact hi), h.length_packets,
    h.getElem?_packets] at hp
  obtain ⟨s, hs, rfl⟩ := Option.map_eq_some_iff.mp hp
  refine ⟨by dsimp only; omega, ?_⟩
  rw [h.map_eq, mapOf, if_pos (Nat.sub_le _ _), Nat.sub_sub_self (by omega), hs]

/-- When all packets have been added, the states are merged. -/
theorem MergedTo.getState {as bs : List ℕ} (ha : a.Valid as) (hane : as ≠ []) (hb : b.Valid bs)
    (hbne : bs ≠ []) (h : MergedTo a b (b.seqHead + 1) v) (q : ℕ) :
    v.getState q = merged a b q := by
  obtain ⟨items, hne, hv⟩ := h.valid
  have hasize : a.size ≠ 0 := ha.size_eq_zero_iff.not.mpr hane
  have hbsize : b.size ≠ 0 := hb.size_eq_zero_iff.not.mpr hbne
  have hspan := hb.span hbne
  have hpos := total_pos hbne
  rw [hv.getState, merged, if_neg hasize, ha.getState, hb.getState]
  cases hx : a.map q with
  | some x =>
    have hy : (if q < b.seqHead + 1 then b.map q else none) = b.map q := by
      split_ifs with hlt
      · rfl
      · by_contra hsome
        obtain ⟨-, -, hhi⟩ := hb.isSome_map.mp (Option.isSome_iff_ne_none.mpr (Ne.symm hsome))
        omega
    rw [h.known q x hx, hy]
    cases b.map q with
    | some y => rfl
    | none => rfl
  | none =>
    rw [h.unknown q hx]
    dsimp only
    apply if_congr _ rfl rfl
    rcases h.seqHead with ⟨he, hlast⟩ | ⟨hlt, he⟩
    · omega
    · omega

/-- The packets of two vectors with some packets are merged, if there is space, and the result is
`false` all the same. -/
theorem Valid.mergeWith {as bs : List ℕ} (ha : a.Valid as) (hane : as ≠ []) (hb : b.Valid bs)
    (hbne : bs ≠ []) :
    (∃ v, a.mergeWith g (some b) = some (v, false)) ∧
      (a.seqHead + maxAckvSize * (runLengthMask + 1) ≤ b.seqTail + 2 ^ 32 →
        Admitted g b.packets.reverse a →
          ∃ v, a.mergeWith g (some b) = some (v, false) ∧ ∀ q, v.getState q = merged a b q) := by
  have hasize : a.size ≠ 0 := ha.size_eq_zero_iff.not.mpr hane
  have hbsize : b.size ≠ 0 := hb.size_eq_zero_iff.not.mpr hbne
  have hspan := hb.span hbne
  have hy := hb.yields_up hbne
  have hlen : b.packets.reverse.length = total bs := by rw [List.length_reverse, hb.length_packets]
  rw [AckVector.mergeWith, if_neg hbsize, if_neg hasize]
  refine ⟨mergeFrom_false hy (by omega), fun hfar hadm => ?_⟩
  obtain ⟨v, he, hm⟩ := mergeFrom_mergedTo (g := g) (n := b.seqHead + 2 - b.seqTail) ha hane hb hy
    (by omega) (hb.reverse_packets hbne) hfar hadm (.start ha hb hane)
  rw [hlen, show b.seqTail + total bs = b.seqHead + 1 by omega] at hm
  exact ⟨v, he, fun q => hm.getState ha hane hb hbne q⟩

/-- A vector without packets becomes a copy of the other one. -/
theorem Valid.mergeWith_nil {bs : List ℕ} (ha : a.Valid []) (hb : b.Valid bs) (hbne : bs ≠ []) :
    ∃ v, a.mergeWith g (some b) = some (v, true) ∧ ∀ q, v.getState q = merged a b q := by
  have hasize : a.size = 0 := ha.size_eq_zero_iff.mpr rfl
  have hbsize : b.size ≠ 0 := hb.size_eq_zero_iff.not.mpr hbne
  obtain ⟨vect, hv, ht⟩ := (hb.exchanges hbne).transfer b.size le_rfl
  obtain ⟨v, hs, hstate, -⟩ := ht g b.ene a ha.holds.pos ha.holds.max_le
  rw [AckVector.mergeWith, if_neg hbsize, if_pos hasize, hv]
  refine ⟨v, congrArg some hs, fun q => ?_⟩
  rw [hstate, merged, if_pos hasize]

/-- Nothing is added from a vector without packets. -/
theorem Valid.mergeWith_of_nil {as : List ℕ} (ha : a.Valid as) (hb : b.Valid []) :
    a.mergeWith g (some b) = some (a, true) ∧ ∀ q, a.getState q = merged a b q := by
  have hbsize : b.size = 0 := hb.size_eq_zero_iff.mpr rfl
  refine ⟨if_pos hbsize, fun q => ?_⟩
  have hnone : b.getState q = none := by rw [hb.getState, hb.map_nil]
  by_cases hasize : a.size = 0
  · obtain rfl := ha.size_eq_zero_iff.mp hasize
    rw [merged, if_pos hasize, hnone, ha.getState, ha.map_nil]
  · rw [merged, if_neg hasize, hnone]
    cases a.getState q with
    | some x => rfl
    | none =>
      have hempty : ¬ (b.size ≠ 0 ∧ a.seqHead < q ∧ q ≤ b.seqHead) := fun h => h.1 hbsize
      exact (if_neg hempty).symm

theorem merges_some_iff {w : AckVector} {r : Option (AckVector × Bool)} :
    Merges g a (some w) r ↔
      (Fits g a w → ∃ v, r = some (v, true) ∧ ∀ q, v.getState q = merged a w q) ∧
        ((∃ v, r = some (v, false)) ↔ ¬ Fits g a w) := by
  have hfails : ((some w = none) ∨ ∃ w' ∈ some w, ¬ Fits g a w') ↔ ¬ Fits g a w := by simp
  constructor
  · rintro ⟨hs, hf⟩
    exact ⟨hs w rfl, hf.trans hfails⟩
  · rintro ⟨hs, hf⟩
    refine ⟨fun w' hw' => ?_, hf.trans hfails.symm⟩
    obtain rfl := Option.some.inj hw'
    exact hs

end AckVector

open AckVector

/-- Whenever there is space, the states are merged as described. The merge reports this as described
exactly if one of the vectors has no packets or there is too little space. -/
theorem mergeWith_meets_iff (junk junk' : ℕ → ℕ → ℕ) {b : Option AckVector}
    (ha : ((ackUses junk).restrict AckUse.Roomy).Reachable a)
    (hb : ∀ w ∈ b, ((ackUses junk').restrict AckUse.Roomy).Reachable w)
    (hwrap : ∀ w ∈ b, w.size ≠ 0 → ¬ a.Wrapped w.seqTail) :
    (∀ w ∈ b, Fits junk a w → ∃ v ok, a.mergeWith junk b = some (v, ok) ∧
      ∀ q, v.getState q = merged a w q) ∧
    (Merges junk a b (a.mergeWith junk b) ↔
      ∀ w ∈ b, a.size = 0 ∨ w.size = 0 ∨ ¬ Fits junk a w) := by
  obtain ⟨as, hva⟩ := (ackUses_invariant junk).reachable ha
  cases b with
  | none =>
    refine ⟨by simp, iff_of_true ⟨by simp, ?_⟩ (by simp)⟩
    exact iff_of_true ⟨a, rfl⟩ (.inl rfl)
  | some w =>
    obtain ⟨bs, hvb⟩ := (ackUses_invariant junk').reachable (hb w rfl)
    have hone : (∀ w' ∈ some w, Fits junk a w' → ∃ v ok, a.mergeWith junk (some w) = some (v, ok) ∧
        ∀ q, v.getState q = merged a w' q) ↔ (Fits junk a w → ∃ v ok,
          a.mergeWith junk (some w) = some (v, ok) ∧ ∀ q, v.getState q = merged a w q) := by simp
    have hcond : (∀ w' ∈ some w, a.size = 0 ∨ w'.size = 0 ∨ ¬ Fits junk a w') ↔
        (a.size = 0 ∨ w.size = 0 ∨ ¬ Fits junk a w) := by simp
    rw [hone, hcond, merges_some_iff]
    by_cases hempty : a.size = 0 ∨ w.size = 0
    · have hfits : Fits junk a w := fun hna hnw => by
        rcases hempty with he | he
        · exact absurd he hna
        · exact absurd he hnw
      obtain ⟨v, he, hstate⟩ : ∃ v, a.mergeWith junk (some w) = some (v, true) ∧
          ∀ q, v.getState q = merged a w q := by
        by_cases hw : w.size = 0
        · obtain rfl := hvb.size_eq_zero_iff.mp hw
          exact ⟨a, hva.mergeWith_of_nil hvb⟩
        · obtain rfl := hva.size_eq_zero_iff.mp (hempty.resolve_right hw)
          exact hva.mergeWith_nil hvb (hvb.size_eq_zero_iff.not.mp hw)
      refine ⟨fun _ => ⟨v, true, he, hstate⟩, iff_of_true ⟨fun _ => ⟨v, he, hstate⟩, ?_⟩ ?_⟩
      · rw [he]
        simp [hfits]
      · tauto
    · push Not at hempty
      obtain ⟨hna, hnw⟩ := hempty
      have hane := hva.size_eq_zero_iff.not.mp hna
      have hbne := hvb.size_eq_zero_iff.not.mp hnw
      obtain ⟨⟨v, he⟩, hmerged⟩ := hva.mergeWith (g := junk) hane hvb hbne
      have hfar : a.seqHead + maxAckvSize * (runLengthMask + 1) ≤ w.seqTail + 2 ^ 32 := by
        by_contra hlt
        exact hwrap w rfl hnw ⟨hna, not_le.mp hlt⟩
      refine ⟨fun hfits => ?_, ?_, ?_⟩
      · obtain ⟨v', he', hstate⟩ := hmerged hfar (hfits hna hnw)
        exact ⟨v', false, he', hstate⟩
      · rintro ⟨hs, -⟩
        refine .inr (.inr fun hfits => ?_)
        obtain ⟨v', he', -⟩ := hs hfits
        rw [he] at he'
        exact absurd he' (by simp)
      · intro hc
        have hnot := (hc.resolve_left hna).resolve_left hnw
        exact ⟨fun hfits => absurd hfits hnot, iff_of_true ⟨v, he⟩ hnot⟩

/-- A vector with one packet is copied. -/
theorem mergeWith_meets_iff_copy :
    Merges (fun _ _ => 0) (.new (fun _ _ => 0) 2)
      (some ((AckVector.new (fun _ _ => 0) 2).addPacket (fun _ _ => 0) 6 .ecn).1)
      ((AckVector.new (fun _ _ => 0) 2).mergeWith (fun _ _ => 0)
        (some ((AckVector.new (fun _ _ => 0) 2).addPacket (fun _ _ => 0) 6 .ecn).1)) := by
  have ha : ((ackUses fun _ _ => 0).restrict AckUse.Roomy).Reachable (.new (fun _ _ => 0) 2) :=
    .init ⟨2, newAckvCons, by decide, by decide, rfl⟩
  have hb : ((ackUses fun _ _ => 0).restrict AckUse.Roomy).Reachable
      ((AckVector.new (fun _ _ => 0) 2).addPacket (fun _ _ => 0) 6 .ecn).1 :=
    .step (x := .call (.addPacket 6 .ecn)) ha
      ⟨⟨by decide, fun h => h.1 rfl⟩, fun _ => by decide⟩ rfl
  refine (mergeWith_meets_iff _ (fun _ _ => 0) ha (fun w hw => ?_) fun w hw _ h =>
    h.1 rfl).2.mpr fun w hw => .inl rfl
  obtain rfl := Option.some.inj hw
  exact hb

/-- A packet is added to a vector, and the result is `false`. -/
theorem mergeWith_reports_failure :
    ∃ a b, ((ackUses fun _ _ => 0).restrict AckUse.Roomy).Reachable a ∧
      ((ackUses fun _ _ => 0).restrict AckUse.Roomy).Reachable b ∧
      ¬ a.Wrapped b.seqTail ∧ Fits (fun _ _ => 0) a b ∧
      ¬ Merges (fun _ _ => 0) a (some b) (a.mergeWith (fun _ _ => 0) (some b)) := by
  have hreach : ∀ q < 2 ^ 32, ((ackUses fun _ _ => 0).restrict AckUse.Roomy).Reachable
      ((AckVector.new (fun _ _ => 0) 2).addPacket (fun _ _ => 0) q .recv).1 := fun q hq =>
    .step (x := .call (.addPacket q .recv)) (.init ⟨2, newAckvCons, by decide, by decide, rfl⟩)
      ⟨⟨hq, fun h => h.1 rfl⟩, fun _ => by decide⟩ rfl
  have hfits : Fits (fun _ _ => 0)
      ((AckVector.new (fun _ _ => 0) 2).addPacket (fun _ _ => 0) 5 .recv).1
      ((AckVector.new (fun _ _ => 0) 2).addPacket (fun _ _ => 0) 6 .recv).1 :=
    fun _ _ => ⟨fun _ => rfl, trivial⟩
  refine ⟨_, _, hreach 5 (by decide), hreach 6 (by decide), fun h => absurd h.2 (by decide), hfits,
    fun h => ?_⟩
  obtain ⟨v, hv, -⟩ := h.succeeds _ rfl hfits
  have hflag : _ = some true := congrArg (Option.map Prod.snd) hv
  exact absurd hflag (by decide)

end Ns2XPass
