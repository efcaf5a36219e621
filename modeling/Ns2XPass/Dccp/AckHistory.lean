import Ns2XPass.Dccp.AckMap
import Ns2XPass.Dccp.OptionWalks

/-! # Ack vectors in options

An agent sends its ack vector as the data of an option and records this in its
history. The peer imports the data of the option as a vector of its own.
-/

namespace Ns2XPass

variable {v w : AckVector} {items rest : List ℕ} {b q n m k ackvSize seqnum acknum : ℕ}
  {g : ℕ → ℕ → ℕ} {o : DccpOptions} {added : List (UInt8 × List UInt8)}

/-- `dccp_ackv_hist_entry`. -/
structure AckHistEntry where
  seqSent : ℕ
  ackNum : ℕ
  ene : ℕ

namespace AckVector

/-- A history from the last ack on. A number that is not newer than the last one aborts, and so does
a head that has moved back. -/
def addToAckHistory (v : AckVector) (hist : List AckHistEntry) (seqnum : ℕ) :
    Option (List AckHistEntry) :=
  match hist.head? with
  | none => some [⟨seqnum, v.seqHead, v.ene⟩]
  | some e =>
    if seqnum ≤ e.seqSent ∨ v.seqHead < e.ackNum then none
    else some (⟨seqnum, v.seqHead, v.ene⟩ :: hist)

/-- The items are copied if the array has space for them. -/
def getAckVector (v : AckVector) (size : ℕ) : Option (List ℕ) :=
  if v.size = 0 ∨ size < v.size then none else some v.contents

/-- `sendAckVector` with options, which aborts if it fails. The size of the data is one byte. -/
def sendAckVector (v : AckVector) (hist : List AckHistEntry) (seqnum acknum : ℕ)
    (options : DccpOptions) : Option (List AckHistEntry × DccpOptions) :=
  if acknum ≠ v.seqHead then none
  else if v.size = 0 then none
  else
    (v.getAckVector v.size).bind fun vect =>
      let type := if v.ene = 0 then optAckVectorN0 else optAckVectorN1
      let r := options.addOption type (fun i => .ofNat (vect.getD i 0)) (.ofNat v.size)
      if r.1 = optNoErr then (v.addToAckHistory hist seqnum).map fun hist => (hist, r.2) else none

/-- The last number of the items, where each difference has 32 bits. -/
def seqEndOf : List ℕ → ℕ → ℕ
  | [], seqEnd => seqEnd
  | [item], seqEnd => sub32 seqEnd (runlen item)
  | item :: rest, seqEnd => seqEndOf rest (sub32 seqEnd (runlen item + 1))

/-- It calls itself again at most as often as the number of steps allows. -/
def setAckVector (junk : ℕ → ℕ → ℕ) (vect : List ℕ) (seqStart ene : ℕ) :
    ℕ → AckVector → AckVector × Bool
  | n, v =>
    if v.maxSize < vect.length then
      match n with
      | 0 => (v, false)
      | n + 1 => { v with size := 0 }.retry junk (setAckVector junk vect seqStart ene n)
    else
      ({ v with
          vector := writeFrom v.maxSize v.vector 0 vect
          size := vect.length
          head := 0
          tail := (vect.length + 2 ^ 16 - 1) % 2 ^ 16
          seqHead := seqStart
          seqTail := seqEndOf vect seqStart
          ene := ene }, true)

/-- The part of `processOption` that imports an ack vector. -/
def processAckVector (junk : ℕ → ℕ → ℕ) (ackvSize : ℕ) (type : UInt8) (data : List UInt8)
    (ackNum : ℕ) : Option AckVector :=
  let r := setAckVector junk (data.map UInt8.toNat) ackNum (1 - (optAckVectorN1.toNat - type.toNat))
    doublings (.new junk ackvSize)
  if r.2 then some r.1 else none

/-! ### The import -/

theorem seqEndOf_add (hne : items ≠ []) (hle : total items ≤ q + 1) (hq : q < 2 ^ 32) :
    total items + seqEndOf items q = q + 1 := by
  induction items generalizing q with
  | nil => exact absurd rfl hne
  | cons b rest ih =>
    rw [total_cons] at hle ⊢
    cases rest with
    | nil =>
      rw [total_nil] at hle ⊢
      rw [seqEndOf, sub32_of_le (by omega) hq]
      omega
    | cons c rest =>
      have hpos : 0 < total (c :: rest) := total_pos (by simp)
      have hsub : sub32 q (runlen b + 1) = q - (runlen b + 1) := sub32_of_le (by omega) hq
      have hrest := ih (q := q - (runlen b + 1)) (by simp) (by omega) (by omega)
      rw [seqEndOf, hsub]
      · omega
      · simp

/-- The vector that an import yields. -/
structure Imported (w : AckVector) (items : List ℕ) (seqStart : ℕ) : Prop where
  fits : items.length ≤ w.maxSize
  max_le : w.maxSize ≤ maxAckvSize
  size : w.size = items.length
  head : w.head = 0
  tail : w.tail = (items.length + 2 ^ 16 - 1) % 2 ^ 16
  seqHead : w.seqHead = seqStart
  seqTail : w.seqTail = seqEndOf items seqStart
  window : window w.vector w.maxSize 0 items.length = items

theorem setAckVector_imported (ene : ℕ) (hpos : 0 < v.maxSize) (hmax : v.maxSize ≤ maxAckvSize)
    (hlen : items.length ≤ maxAckvSize) (hn : items.length ≤ v.maxSize * 2 ^ n) :
    ∃ w, setAckVector g items q ene n v = (w, true) ∧ w.Imported items q := by
  induction n generalizing v with
  | zero =>
    have hfits : ¬ v.maxSize < items.length := by omega
    unfold setAckVector
    rw [if_neg hfits]
    exact ⟨_, rfl, not_lt.mp hfits, hmax, rfl, rfl, rfl, rfl, rfl,
      window_writeFrom_self (not_lt.mp hfits)⟩
  | succ n ih =>
    unfold setAckVector
    split_ifs with hfull
    · have hne : v.maxSize ≠ maxAckvSize := by omega
      have hle : items.length ≤ min (v.maxSize * 2) maxAckvSize * 2 ^ n := by
        rcases min_choice (v.maxSize * 2) maxAckvSize with hm | hm
        · rw [hm, Nat.mul_assoc, ← Nat.pow_succ']
          exact hn
        · rw [hm]
          exact hlen.trans (Nat.le_mul_of_pos_right _ (Nat.two_pow_pos n))
      have hmin : 0 < min (v.maxSize * 2) maxAckvSize := lt_min (by omega) (by decide)
      dsimp only
      unfold retry doubleMaxSize
      rw [if_neg hne]
      exact ih hmin (min_le_right _ _) hle
    · exact ⟨_, rfl, not_lt.mp hfull, hmax, rfl, rfl, rfl, rfl, rfl,
        window_writeFrom_self (not_lt.mp hfull)⟩

/-- The ring holds the items, as long as their numbers do not wrap. -/
theorem Imported.valid (h : w.Imported items q) (hne : items ≠ [])
    (hle : total items ≤ q + 1) (hq : q < 2 ^ 32) (hb : ∀ b ∈ items, b < 2 ^ 8) :
    w.Valid items := by
  have hlen := List.length_pos_of_ne_nil hne
  have hfits := h.fits
  have hmax := h.max_le
  have hbound : maxAckvSize < 2 ^ 16 := by decide
  have hlast : (items.length + 2 ^ 16 - 1) % 2 ^ 16 = items.length - 1 := by omega
  have hholds : w.Holds items :=
    ⟨hmax, by rw [h.head]; omega, h.size, hfits, by rw [h.head]; exact h.window,
      fun _ => by rw [h.head, h.tail, hlast, Nat.zero_add, Nat.mod_eq_of_lt (by omega)], hb⟩
  exact ⟨hholds, h.seqHead ▸ hq, fun _ => by
    rw [h.seqTail, h.seqHead]
    exact seqEndOf_add hne hle hq⟩

/-- The states are those of the items. -/
theorem Imported.getState (h : w.Imported items q) (hne : items ≠ [])
    (hle : total items ≤ q + 1) (hq : q < 2 ^ 32) (hb : ∀ b ∈ items, b < 2 ^ 8) (p : ℕ) :
    w.getState p = mapOf q (expand items) p := by
  have hvalid := h.valid hne hle hq hb
  rw [hvalid.getState, hvalid.map_eq, h.seqHead]

end AckVector

end Ns2XPass
