import Mathlib.Data.List.Basic

/-! # Switches driven by a list of messages

Some messages turn a switch on, some turn it off, the others leave it as it is.
Of interest is whether each message that turns it off meets it on, when messages
are added at the end or lost from the middle.
-/

namespace Ns2XPass

variable {α : Type*} (κ : α → Option Bool)

/-- The switch after a message. -/
def turn (b : Bool) (m : α) : Bool := (κ m).getD b

/-- The switch after a list of messages. -/
def turned : Bool → List α → Bool
  | b, [] => b
  | b, m :: ms => turned (turn κ b m) ms

/-- Each message that turns the switch off finds it on. -/
def OffsMeetOn : Bool → List α → Prop
  | _, [] => True
  | b, m :: ms => (κ m = some false → b = true) ∧ OffsMeetOn (turn κ b m) ms

instance decidableOffsMeetOn : ∀ (b : Bool) (ms : List α), Decidable (OffsMeetOn κ b ms)
  | _, [] => isTrue trivial
  | b, m :: ms =>
    have := decidableOffsMeetOn (turn κ b m) ms
    inferInstanceAs (Decidable (_ ∧ _))

variable {κ} {b : Bool} {m : α} {l l' : List α}

theorem turn_of_none (h : κ m = none) : turn κ b m = b := by simp [turn, h]

theorem turned_append : turned κ b (l ++ l') = turned κ (turned κ b l) l' := by
  induction l generalizing b with
  | nil => rfl
  | cons m l ih => exact ih

theorem offsMeetOn_append :
    OffsMeetOn κ b (l ++ l') ↔ OffsMeetOn κ b l ∧ OffsMeetOn κ (turned κ b l) l' := by
  induction l generalizing b with
  | nil => simp [OffsMeetOn, turned]
  | cons m l ih => simp only [List.cons_append, OffsMeetOn, turned, ih, and_assoc]

theorem turned_mono (h : turned κ false l = true) : turned κ b l = true := by
  induction l generalizing b with
  | nil => cases h
  | cons m l ih =>
    rw [turned] at h ⊢
    cases hm : κ m with
    | none => rw [turn_of_none hm] at h ⊢; exact ih h
    | some c => simpa [turn, hm] using h

theorem OffsMeetOn.mono (h : OffsMeetOn κ false l) : OffsMeetOn κ b l := by
  induction l generalizing b with
  | nil => trivial
  | cons m l ih =>
    obtain ⟨hm, h⟩ := h
    constructor
    · intro hoff
      cases hm hoff
    · cases hk : κ m with
      | none => rw [turn_of_none hk] at h ⊢; exact ih h
      | some c => simpa [turn, hk] using h

theorem turn_le (h : κ m ≠ some true) (hb : turn κ b m = true) : b = true := by
  cases hm : κ m with
  | none => rwa [turn_of_none hm] at hb
  | some c => cases c <;> simp_all [turn]

/-- A message that does not turn the switch on is lost. -/
theorem OffsMeetOn.erase (hm : κ m ≠ some true) (h : OffsMeetOn κ b (l ++ m :: l')) :
    OffsMeetOn κ b (l ++ l') := by
  obtain ⟨hl, _, h⟩ := offsMeetOn_append.mp h
  apply offsMeetOn_append.mpr
  refine ⟨hl, ?_⟩
  cases ht : turned κ b l with
  | true =>
    cases ht' : turn κ (turned κ b l) m with
    | true => rwa [ht'] at h
    | false => rw [ht'] at h; exact h.mono
  | false =>
    have : turn κ (turned κ b l) m = false := by
      by_contra hne
      exact absurd (turn_le hm (by simpa using hne)) (by simp [ht])
    rwa [this] at h

theorem turned_erase (hm : κ m ≠ some true) (h : turned κ b (l ++ m :: l') = true) :
    turned κ b (l ++ l') = true := by
  rw [turned_append] at h ⊢
  rw [turned] at h
  cases ht' : turn κ (turned κ b l) m with
  | true => rw [ht'] at h; rwa [turn_le hm ht']
  | false => rw [ht'] at h; exact turned_mono h

/-- A list whose first switching message turns on does not depend on the switch. -/
theorem turned_congr_of_on {c : Bool} (h : l.findSome? κ = some true) :
    turned κ b l = turned κ c l ∧ (OffsMeetOn κ b l → OffsMeetOn κ c l) := by
  induction l generalizing b c with
  | nil => cases h
  | cons m l ih =>
    cases hm : κ m with
    | none =>
      rw [List.findSome?_cons, hm] at h
      simpa [turned, OffsMeetOn, turn_of_none hm, hm] using ih h
    | some d =>
      rw [List.findSome?_cons, hm] at h
      simp_all [turned, OffsMeetOn, turn]

/-- A list without switching messages leaves the switch as it is. -/
theorem offsMeetOn_of_none (h : l.findSome? κ = none) : OffsMeetOn κ b l := by
  induction l with
  | nil => trivial
  | cons m l ih =>
    obtain ⟨hm, hl⟩ := List.forall_mem_cons.mp (List.findSome?_eq_none_iff.mp h)
    rw [OffsMeetOn, turn_of_none hm, hm]
    exact ⟨nofun, ih (List.findSome?_eq_none_iff.mpr hl)⟩

/-- A message that turns the switch on is lost, but the switch is on without it or no later
message relies on it. -/
theorem OffsMeetOn.erase_on (hm : κ m = some true) (h : OffsMeetOn κ b (l ++ m :: l'))
    (hl' : turned κ b l = true ∨ l'.findSome? κ ≠ some false) : OffsMeetOn κ b (l ++ l') := by
  obtain ⟨hl, _, h⟩ := offsMeetOn_append.mp h
  rw [turn, hm, Option.getD_some] at h
  apply offsMeetOn_append.mpr
  refine ⟨hl, ?_⟩
  rcases hl' with hon | hnext
  · rwa [hon]
  · cases hk : l'.findSome? κ with
    | none => exact offsMeetOn_of_none hk
    | some c =>
      cases c with
      | true => exact (turned_congr_of_on hk).2 h
      | false => exact absurd hk hnext

theorem turned_erase_on (hm : κ m = some true) (h : turned κ b (l ++ m :: l') = true)
    (hl' : turned κ b l = true ∨ l'.findSome? κ = some true) : turned κ b (l ++ l') = true := by
  rw [turned_append, turned, turn, hm, Option.getD_some] at h
  rw [turned_append]
  rcases hl' with hon | hnext
  · rwa [hon]
  · rwa [(turned_congr_of_on hnext).1] at h

end Ns2XPass
