import Mathlib.Data.List.Basic
import Mathlib.Order.Basic

/-! # Lossy channels that keep the order

A channel is a list of messages. Any message may be lost, and a message may be
taken from the middle when none of its kind is before it. Numbers that are
issued in increasing order stay in increasing order on such a channel.
-/

namespace Ns2XPass

variable {α : Type*}

section Take

variable {l : List α} {i : ℕ} {m : α} {p : α → Bool}

theorem eq_append_of_getElem? (h : l[i]? = some m) :
    l = l.take i ++ m :: l.drop (i + 1) := by
  obtain ⟨hi, rfl⟩ := List.getElem?_eq_some_iff.mp h
  rw [List.getElem_cons_drop, List.take_append_drop]

/-- The message that is taken is the first of its kind. -/
theorem filter_eq_cons_of_first (h : l[i]? = some m) (hp : p m = true)
    (hfirst : ∀ m' ∈ l.take i, p m' = false) : l.filter p = m :: (l.eraseIdx i).filter p := by
  have hnil : (l.take i).filter p = [] := by simpa [List.filter_eq_nil_iff] using hfirst
  conv_lhs => rw [eq_append_of_getElem? h]
  simp [List.eraseIdx_eq_take_drop_succ, hnil, hp]

/-- The first message of a queue. -/
theorem eq_cons_of_getElem?_zero (h : l[0]? = some m) : ∃ rest, l = m :: rest := by
  cases l with
  | nil => cases h
  | cons a rest => exact ⟨rest, congrArg (· :: rest) (Option.some.inj h)⟩

/-- Taking a message leaves the other kinds alone. -/
theorem filter_eraseIdx_of_not (h : l[i]? = some m) (hp : p m = false) :
    (l.eraseIdx i).filter p = l.filter p := by
  conv_rhs => rw [eq_append_of_getElem? h]
  simp [List.eraseIdx_eq_take_drop_succ, hp]

theorem filter_eraseIdx_sublist : ((l.eraseIdx i).filter p).Sublist (l.filter p) :=
  (List.eraseIdx_sublist l i).filter p

end Take

section InLine

variable [LT α] {lo hi hi' a : α} {l l' : List α}

/-- The numbers `l` increase strictly between `lo` and `hi`, both exclusive. -/
def InLine (lo : α) (l : List α) (hi : α) : Prop := (lo :: (l ++ [hi])).Pairwise (· < ·)

theorem InLine.nil (h : lo < hi) : InLine lo [] hi := by simpa [InLine] using h

theorem InLine.lt (h : InLine lo l hi) : lo < hi :=
  List.rel_of_pairwise_cons h (List.mem_append_right _ (List.mem_singleton.mpr rfl))

/-- Numbers may be lost. -/
theorem InLine.sublist (h : InLine lo l hi) (hl : l'.Sublist l) : InLine lo l' hi :=
  List.Pairwise.sublist ((hl.append_right _).cons_cons _) h

/-- The next number is issued. -/
theorem InLine.issue [IsTrans α (· < ·)] (h : InLine lo l hi) (hh : hi < hi') :
    InLine lo (l ++ [hi]) hi' := by
  have hall : ∀ b ∈ lo :: l, b < hi := by
    have h' : ((lo :: l) ++ [hi]).Pairwise (· < ·) := h
    exact fun b hb => (List.pairwise_append.mp h').2.2 b hb hi (List.mem_singleton.mpr rfl)
  have hlt : ∀ b ∈ (lo :: l) ++ [hi], b < hi' := by
    intro b hb
    rcases List.mem_append.mp hb with hb | hb
    · exact IsTrans.trans b hi hi' (hall b hb) hh
    · exact (List.mem_singleton.mp hb) ▸ hh
  exact List.pairwise_append.mpr ⟨h, List.pairwise_singleton _ _,
    fun b hb c hc => (List.mem_singleton.mp hc) ▸ hlt b hb⟩

/-- The first number leaves. -/
theorem InLine.tail (h : InLine lo (a :: l) hi) : InLine a l hi := (List.pairwise_cons.mp h).2

theorem InLine.lt_head (h : InLine lo (a :: l) hi) : lo < a :=
  List.rel_of_pairwise_cons h List.mem_cons_self

theorem InLine.head_lt (h : InLine lo (a :: l) hi) : a < hi := h.tail.lt

end InLine

end Ns2XPass
