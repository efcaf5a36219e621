import Ns2XPass.Dccp.AckCalls
import Ns2XPass.Dccp.AckHistory

/-! # The transfer of an ack vector

The peer has the same states as the agent if the ack vector has fewer items than
its size can count in one byte. From 256 items on, only the newest ones are sent,
if the size that is left of the byte is allowed for an option.
-/

namespace Ns2XPass

variable {v w : AckVector} {items : List ℕ} {k m ackvSize seqnum acknum : ℕ}
  {g : ℕ → ℕ → ℕ} {o o' : DccpOptions} {added : List (UInt8 × List UInt8)}
  {hist hist' : List AckHistEntry} {type dataSize : UInt8} {data : ℕ → UInt8}

namespace DccpOptions

theorem addOption_ok_iff (ht : singleByteLimit ≤ type) :
    (o.addOption type data dataSize).1 = optNoErr ↔
      dataSize ≠ 0 ∧ dataSize.toNat + 2 ≤ optMaxLength ∧
        o.size + (dataSize.toNat + 2) ≤ o.maxSize := by
  have htype : ¬ type < singleByteLimit := UInt8.not_lt.mpr ht
  rcases eq_or_ne dataSize 0 with rfl | hne
  · simp [addOption, ht, optErrSize, optNoErr]
  · have hpos : 0 < dataSize := UInt8.pos_iff_ne_zero.mpr hne
    have hcond : (type < singleByteLimit ∧ 0 < dataSize) ∨ (singleByteLimit ≤ type ∧ dataSize = 0) ∨
        optMaxLength < dataSize.toNat + 2 ↔ optMaxLength < dataSize.toNat + 2 := by
      simp [htype, hne]
    unfold addOption
    simp only [if_neg hne, if_pos hpos, hcond]
    by_cases hlong : optMaxLength < dataSize.toNat + 2
    · rw [if_pos hlong]
      exact iff_of_false (show optErrSize ≠ _ by decide) fun h => absurd h.2.1 (not_le.mpr hlong)
    · rw [if_neg hlong]
      by_cases hfull : o.maxSize < o.size + (dataSize.toNat + 2)
      · rw [if_pos hfull]
        exact iff_of_false (show optErrFull ≠ _ by decide) fun h => absurd h.2.2 (not_le.mpr hfull)
      · rw [if_neg hfull]
        exact iff_of_true rfl ⟨hne, not_lt.mp hlong, not_lt.mp hfull⟩

end DccpOptions

namespace AckVector

/-- The type of the option. -/
def optionType (v : AckVector) : UInt8 := if v.ene = 0 then optAckVectorN0 else optAckVectorN1

theorem le_optionType : singleByteLimit ≤ v.optionType := by
  unfold optionType
  split_ifs <;> decide

theorem addToAckHistory_eq_some :
    (∃ hist', v.addToAckHistory hist seqnum = some hist') ↔
      ∀ e ∈ hist.head?, e.seqSent < seqnum ∧ e.ackNum ≤ v.seqHead := by
  unfold addToAckHistory
  cases hist.head? with
  | none => simp
  | some e => 
    simp only [Option.mem_some_iff, forall_eq']
    split_ifs with hold
    · simp; omega
    · simp; omega

/-- The bytes of the first items. -/
def sentBytes (items : List ℕ) (k : ℕ) : List UInt8 := (items.take k).map .ofNat

/-- What a call needs to add its option. -/
structure Admits (v : AckVector) (hist : List AckHistEntry) (seqnum acknum : ℕ)
    (o : DccpOptions) : Prop where
  acknum : acknum = v.seqHead
  history : ∀ e ∈ hist.head?, e.seqSent < seqnum ∧ e.ackNum ≤ v.seqHead
  room : o.size + (v.size % 2 ^ 8 + 2) ≤ o.maxSize

/-- If the call reports success, then a walk through the options finds the new one behind the
others, and the vector that the peer imports from it has the same states. -/
def Delivers (v : AckVector) (junk : ℕ → ℕ → ℕ) (ackvSize : ℕ) (hist : List AckHistEntry)
    (seqnum acknum : ℕ) (o : DccpOptions) (added : List (UInt8 × List UInt8)) : Prop :=
  ∀ hist' o', v.sendAckVector hist seqnum acknum o = some (hist', o') →
    ∃ type data w, o'.walk = some (optErrNotFound, added ++ [(type, data)]) ∧
      processAckVector junk ackvSize type data acknum = some w ∧
      ∀ q, w.getState q = v.getState q

theorem sendAckVector_eq_some :
    v.sendAckVector hist seqnum acknum o = some (hist', o') ↔
      acknum = v.seqHead ∧ v.size ≠ 0 ∧ v.addToAckHistory hist seqnum = some hist' ∧
        o.addOption v.optionType (fun i => .ofNat (v.contents.getD i 0)) (.ofNat v.size) =
          (optNoErr, o') := by
  unfold sendAckVector getAckVector optionType
  by_cases hack : acknum = v.seqHead
  · rw [if_neg (not_not.mpr hack)]
    by_cases hsize : v.size = 0
    · simp [hsize]
    · have hget : ¬ (v.size = 0 ∨ v.size < v.size) := by simp [hsize]
      rw [if_neg hsize, if_neg hget, Option.bind_some]
      dsimp only
      generalize o.addOption (if v.ene = 0 then optAckVectorN0 else optAckVectorN1)
        (fun i => .ofNat (v.contents.getD i 0)) (.ofNat v.size) = r
      obtain ⟨res, o₁⟩ := r
      simp [hack, hsize]
      grind
  · simp [hack]

namespace Valid

theorem firstCells_getD (hk : k ≤ items.length) :
    firstCells (fun i => UInt8.ofNat (items.getD i 0)) k = sentBytes items k := by
  apply List.ext_getElem
  · simp [sentBytes, hk]
  · intro i h₁ h₂
    have hi : i < items.length := by
      rw [length_firstCells] at h₁
      omega
    simp [firstCells, sentBytes, hi]

theorem toNat_sentBytes (hb : ∀ b ∈ items, b < 2 ^ 8) :
    (sentBytes items k).map UInt8.toNat = items.take k := by
  unfold sentBytes
  rw [List.map_map]
  conv_rhs => rw [← List.map_id (items.take k)]
  apply List.map_congr_left
  intro b hmem
  exact Nat.mod_eq_of_lt (hb b (List.mem_of_mem_take hmem))

/-- The option that is sent, and what the peer makes of it. -/
theorem delivered (h : v.Valid items) (hm : m < 2 ^ 16) (ho : o.Stores m added)
    (hpos : 0 < ackvSize) (hle : ackvSize ≤ maxAckvSize)
    (hs : v.sendAckVector hist seqnum acknum o = some (hist', o')) :
    o'.walk = some (optErrNotFound,
      added ++ [(v.optionType, sentBytes items (v.size % 2 ^ 8))]) ∧
    ∃ w, processAckVector g ackvSize v.optionType (sentBytes items (v.size % 2 ^ 8)) acknum =
        some w ∧
      ∀ q, w.getState q = mapOf v.seqHead (expand (items.take (v.size % 2 ^ 8))) q := by
  obtain ⟨rfl, hsize, -, hadd⟩ := sendAckVector_eq_some.mp hs
  have hne : items ≠ [] := h.size_eq_zero_iff.not.mp hsize
  have hspan := h.span hne
  have hok := (DccpOptions.addOption_ok_iff le_optionType).mp (congrArg Prod.fst hadd)
  have hbyte : (UInt8.ofNat v.size).toNat = v.size % 2 ^ 8 := UInt8.toNat_ofNat'
  have hk : v.size % 2 ^ 8 ≤ items.length := h.holds.size ▸ Nat.mod_le _ _
  have hk₀ : v.size % 2 ^ 8 ≠ 0 := by
    intro hzero
    exact hok.1 (UInt8.toNat_inj.mp (hbyte.trans hzero))
  have hcells : firstCells (fun i => UInt8.ofNat (v.contents.getD i 0)) (v.size % 2 ^ 8) =
      sentBytes items (v.size % 2 ^ 8) := by
    rw [h.contents_eq]
    exact firstCells_getD hk
  constructor
  · have hcall := ho.call (c := .addOption v.optionType
      (fun i => .ofNat (v.contents.getD i 0)) (.ofNat v.size)) hm (congrArg Prod.fst hadd)
    change (o.addOption _ _ _).2.Stores m _ at hcall
    rw [hadd, OptionCall.option, hbyte, hcells] at hcall
    exact (hcall.roundTrips hm).walk
  · have hlen : (items.take (v.size % 2 ^ 8)).length = v.size % 2 ^ 8 :=
      (List.length_take).trans (min_eq_left hk)
    have htot : total (items.take (v.size % 2 ^ 8)) + total (items.drop (v.size % 2 ^ 8)) =
        total items := by
      rw [← total_append, List.take_append_drop]
    have hshort : v.size % 2 ^ 8 < 2 ^ 8 := Nat.mod_lt _ (by decide)
    have hmax : 2 ^ 8 ≤ maxAckvSize := by decide
    have hroom : 2 ^ 8 ≤ ackvSize * 2 ^ doublings := by
      have hpow : 2 ^ 8 ≤ 2 ^ doublings := by decide
      exact hpow.trans (Nat.le_mul_of_pos_left _ hpos)
    obtain ⟨w, hw, hi⟩ := setAckVector_imported (g := g) (q := v.seqHead)
      (v := .new g ackvSize) (n := doublings)
      (1 - (optAckVectorN1.toNat - v.optionType.toNat)) hpos hle
      (by omega) (hlen ▸ hshort.le.trans hroom)
    refine ⟨w, ?_, fun q => hi.getState ?_ (by omega) h.seqHead_lt ?_ q⟩
    · rw [processAckVector, toNat_sentBytes h.holds.byte, hw]
      rfl
    · exact List.ne_nil_of_length_pos (by omega)
    · exact fun b hb => h.holds.byte b (List.mem_of_mem_take hb)

/-- All items are sent. -/
theorem delivers (h : v.Valid items) (hm : m < 2 ^ 16) (ho : o.Stores m added)
    (hpos : 0 < ackvSize) (hle : ackvSize ≤ maxAckvSize) (hsize : v.size < 2 ^ 8) :
    v.Delivers g ackvSize hist seqnum acknum o added := by
  intro hist' o' hs
  obtain ⟨hwalk, w, hw, hstate⟩ := h.delivered hm ho hpos hle hs
  refine ⟨_, _, w, hwalk, hw, fun q => ?_⟩
  rw [hstate, h.getState, h.map_eq, Nat.mod_eq_of_lt hsize, h.holds.size, List.take_length]

/-- The oldest item is not sent. -/
theorem not_delivers (h : v.Valid items) (hm : m < 2 ^ 16) (ho : o.Stores m added)
    (hpos : 0 < ackvSize) (hle : ackvSize ≤ maxAckvSize)
    (ha : v.Admits hist seqnum acknum o) (hsize : 2 ^ 8 ≤ v.size) (hlo : v.size % 2 ^ 8 ≠ 0)
    (hhi : v.size % 2 ^ 8 + 2 ≤ optMaxLength) :
    ¬ v.Delivers g ackvSize hist seqnum acknum o added := by
  intro hd
  have hne : items ≠ [] := h.size_eq_zero_iff.not.mp (by omega)
  have hspan := h.span hne
  have hbyte : (UInt8.ofNat v.size).toNat = v.size % 2 ^ 8 := UInt8.toNat_ofNat'
  obtain ⟨hist', hh⟩ := addToAckHistory_eq_some.mpr ha.history
  have hok : (o.addOption v.optionType (fun i => .ofNat (v.contents.getD i 0))
      (.ofNat v.size)).1 = optNoErr := by
    rw [DccpOptions.addOption_ok_iff le_optionType, hbyte]
    refine ⟨fun hz => hlo ?_, hhi, ha.room⟩
    rw [← hbyte, hz]
    rfl
  have hs : v.sendAckVector hist seqnum acknum o = some (hist', (o.addOption v.optionType
      (fun i => .ofNat (v.contents.getD i 0)) (.ofNat v.size)).2) :=
    sendAckVector_eq_some.mpr ⟨ha.acknum, by omega, hh, Prod.ext hok rfl⟩
  obtain ⟨type, data, w, hwalk, hw, hstate⟩ := hd _ _ hs
  obtain ⟨hwalk', w', hw', hstate'⟩ := h.delivered (g := g) hm ho hpos hle hs
  have hopt := congrArg Prod.snd (Option.some.inj (hwalk.symm.trans hwalk'))
  obtain ⟨rfl, rfl⟩ := Prod.mk.inj (List.singleton_inj.mp (List.append_cancel_left hopt))
  obtain rfl := Option.some.inj (hw.symm.trans hw')
  have hlast : (v.map v.seqTail).isSome = true := h.isSome_map.mpr ⟨hne, le_rfl, by
    have := total_pos hne
    omega⟩
  have hrest : items.drop (v.size % 2 ^ 8) ≠ [] := by
    rw [ne_eq, List.drop_eq_nil_iff, ← h.holds.size]
    omega
  have htot : total (items.take (v.size % 2 ^ 8)) + total (items.drop (v.size % 2 ^ 8)) =
      total items := by
    rw [← total_append, List.take_append_drop]
  have hdrop := total_pos hrest
  rw [← h.getState, ← hstate, hstate', mapOf, if_pos (by omega), isSome_getElem?,
    length_expand] at hlast
  omega

end Valid

/-- What a call needs to add its option, when it counts some of the items. -/
theorem sizes_of_success (hs : v.sendAckVector hist seqnum acknum o = some (hist', o')) :
    v.Admits hist seqnum acknum o ∧ v.size % 2 ^ 8 ≠ 0 ∧ v.size % 2 ^ 8 + 2 ≤ optMaxLength := by
  obtain ⟨hack, -, hh, hadd⟩ := sendAckVector_eq_some.mp hs
  have hok := (DccpOptions.addOption_ok_iff le_optionType).mp (congrArg Prod.fst hadd)
  have hbyte : (UInt8.ofNat v.size).toNat = v.size % 2 ^ 8 := UInt8.toNat_ofNat'
  rw [hbyte] at hok
  refine ⟨⟨hack, addToAckHistory_eq_some.mp ⟨_, hh⟩, hok.2.2⟩, fun hz => hok.1 ?_, hok.2.1⟩
  exact UInt8.toNat_inj.mp (hbyte.trans hz)

end AckVector

end Ns2XPass
