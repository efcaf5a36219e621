import Ns2XPass.Dccp.Connection
import Ns2XPass.Library.Window

/-! # The send buffer of a DCCP agent

The sizes of the packets that wait are kept in a ring with a flag for when it is empty.
Whatever is called, it answers as the list by which an agent keeps them does: the oldest
size comes first, and the capacity is that of the ring, or one.
-/

namespace Ns2XPass

variable {l : List ℤ} {n : ℕ} {x : ℤ}

structure DccpSendBuffer where
  buf : ℕ → ℤ
  head : ℕ
  tail : ℕ
  size : ℕ
  isEmpty : Bool

/-- The calls of an agent. The last one is the loop of `advanceby`. -/
inductive SendBufferCall
  | add (packetSize : ℤ)
  | full
  | empty
  | top
  | remove
  | advance (delta packetSize : ℤ)

inductive SendBufferAnswer
  | none
  | flag (b : Bool)
  | number (n : ℤ)

namespace DccpSendBuffer

/-- New memory holds anything. -/
def new (junk : ℕ → ℤ) (size : ℤ) : DccpSendBuffer where
  buf := junk
  head := 0
  tail := 0
  size := if size ≤ 0 then 1 else size.toNat
  isEmpty := true

variable (b : DccpSendBuffer)

def add (packetSize : ℤ) : DccpSendBuffer × Bool :=
  if b.isEmpty then
    ({ b with buf := Function.update b.buf b.head packetSize, isEmpty := false }, true)
  else if (b.tail + 1) % b.size = b.head then (b, false)
  else
    let tail := (b.tail + 1) % b.size
    ({ b with tail := tail, buf := Function.update b.buf tail packetSize }, true)

def full : Bool := !b.isEmpty && (b.tail + 1) % b.size = b.head

def empty : Bool := b.isEmpty

def top : ℤ := if b.isEmpty then 0 else b.buf b.head

def remove : DccpSendBuffer × ℤ :=
  if b.isEmpty then (b, 0)
  else if b.head ≠ b.tail then ({ b with head := (b.head + 1) % b.size }, b.buf b.head)
  else ({ b with isEmpty := true }, b.buf b.head)

/-- The loop of `advanceby`. -/
def advance (packetSize : ℤ) : ℕ → DccpSendBuffer → DccpSendBuffer
  | 0, b => b
  | n + 1, b => if b.full then b else advance packetSize n (b.add packetSize).1

def call : SendBufferCall → DccpSendBuffer × SendBufferAnswer
  | .add packetSize => ((b.add packetSize).1, .flag (b.add packetSize).2)
  | .full => (b, .flag b.full)
  | .empty => (b, .flag b.empty)
  | .top => (b, .number b.top)
  | .remove => (b.remove.1, .number b.remove.2)
  | .advance delta packetSize => (advance packetSize delta.toNat b, .none)

/-- The answers to calls, one after the other. -/
def answers : DccpSendBuffer → List SendBufferCall → List SendBufferAnswer
  | _, [] => []
  | b, c :: calls => (b.call c).2 :: answers (b.call c).1 calls

end DccpSendBuffer

/-- What a call is to an agent that keeps the sizes as a list. -/
def SendBufferCall.onList (capacity : ℕ) (sb : List ℤ) :
    SendBufferCall → List ℤ × SendBufferAnswer
  | add packetSize =>
    if sb.length < capacity then (sb ++ [packetSize], .flag true) else (sb, .flag false)
  | full => (sb, .flag (decide (capacity ≤ sb.length)))
  | empty => (sb, .flag sb.isEmpty)
  | top => (sb, .number (sb.headD 0))
  | remove => (sb.tail, .number (sb.headD 0))
  | advance delta packetSize =>
    (sb ++ List.replicate (min delta.toNat (capacity - sb.length)) packetSize, .none)

def listAnswers (capacity : ℕ) : List ℤ → List SendBufferCall → List SendBufferAnswer
  | _, [] => []
  | sb, c :: calls =>
    (c.onList capacity sb).2 :: listAnswers capacity (c.onList capacity sb).1 calls

namespace DccpSendBuffer

variable {b : DccpSendBuffer}

/-- The ring holds the sizes from its head on. An empty ring has its tail where its head is. -/
structure Holds (b : DccpSendBuffer) (l : List ℤ) : Prop where
  head_lt : b.head < b.size
  fits : l.length ≤ b.size
  isEmpty : b.isEmpty = l.isEmpty
  tail : b.tail = (b.head + (l.length - 1)) % b.size
  window : window b.buf b.size b.head l.length = l

/-- The next cell is the first one again if all of them are used. -/
theorem next_eq_head_iff {head size : ℕ} (hhead : head < size) (hn : n < size) :
    ((head + n) % size + 1) % size = head ↔ n + 1 = size := by
  rw [Nat.mod_add_mod, Nat.add_assoc]
  rcases lt_or_ge (head + (n + 1)) size with hlt | hge
  · rw [Nat.mod_eq_of_lt hlt]
    omega
  · rw [Nat.mod_eq_sub_mod hge, Nat.mod_eq_of_lt (by omega)]
    omega

theorem new_holds (junk : ℕ → ℤ) (size : ℤ) : (new junk size).Holds [] where
  head_lt := by
    change 0 < if size ≤ 0 then 1 else size.toNat
    split_ifs <;> omega
  fits := Nat.zero_le _
  isEmpty := rfl
  tail := (Nat.zero_mod _).symm
  window := rfl

namespace Holds

theorem wraps_iff (h : b.Holds l) (hne : l ≠ []) :
    (b.tail + 1) % b.size = b.head ↔ l.length = b.size := by
  have hpos := List.length_pos_of_ne_nil hne
  have hfits := h.fits
  rw [h.tail, next_eq_head_iff h.head_lt (by omega)]
  omega

theorem full (h : b.Holds l) : b.full = decide (b.size ≤ l.length) := by
  have hpos := h.head_lt
  have hfits := h.fits
  unfold DccpSendBuffer.full
  rw [h.isEmpty]
  rcases eq_or_ne l [] with rfl | hne
  · have hnot : ¬ b.size ≤ ([] : List ℤ).length := not_le.mpr (Nat.zero_lt_of_lt hpos)
    rw [decide_eq_false hnot]
    rfl
  · have hiff := h.wraps_iff hne
    rw [List.isEmpty_eq_false_iff.mpr hne, Bool.not_false, Bool.true_and]
    apply decide_eq_decide.mpr
    rw [hiff]
    omega

theorem cell (h : b.Holds (x :: l)) : b.buf b.head = x := by
  have hwindow := h.window
  rw [List.length_cons, window_succ, Nat.mod_eq_of_lt h.head_lt] at hwindow
  exact (List.cons.inj hwindow).1

theorem top (h : b.Holds l) : b.top = l.headD 0 := by
  unfold DccpSendBuffer.top
  rw [h.isEmpty]
  cases l with
  | nil => rfl
  | cons x l => exact h.cell

/-- A ring that is not full takes another size at its end. -/
theorem add (h : b.Holds l) (hlt : l.length < b.size) (x : ℤ) :
    (b.add x).2 = true ∧ (b.add x).1.Holds (l ++ [x]) ∧ (b.add x).1.size = b.size := by
  have hhead := h.head_lt
  have hlast : ∀ tail, tail % b.size = (b.head + l.length) % b.size →
      Ns2XPass.window (Function.update b.buf (tail % b.size) x) b.size b.head (l ++ [x]).length =
        l ++ [x] := fun tail htail => by
    have hwrite := window_writeFrom (c := b.buf) (n := b.size) (p := b.head) (i := l.length)
      (l := [x]) (m := 0) hlt
    rw [htail, List.length_append]
    rw [h.window, window_zero, List.append_nil] at hwrite
    exact hwrite
  unfold DccpSendBuffer.add
  rw [h.isEmpty]
  rcases eq_or_ne l [] with rfl | hne
  · rw [if_pos List.isEmpty_nil]
    refine ⟨rfl, ⟨hhead, hlt, rfl, h.tail, ?_⟩, rfl⟩
    have hself := hlast b.head rfl
    rwa [Nat.mod_eq_of_lt hhead] at hself
  · have hpos := List.length_pos_of_ne_nil hne
    have hroom : ¬ (b.tail + 1) % b.size = b.head := by
      rw [h.wraps_iff hne]
      exact hlt.ne
    have hnext : (b.tail + 1) % b.size = (b.head + l.length) % b.size := by
      rw [h.tail, Nat.mod_add_mod, Nat.add_assoc, Nat.sub_add_cancel hpos]
    rw [List.isEmpty_eq_false_iff.mpr hne, if_neg Bool.false_ne_true, if_neg hroom]
    refine ⟨rfl, ⟨hhead, ?_, ?_, ?_, hlast _ hnext⟩, rfl⟩
    · rw [List.length_append]
      exact hlt
    · simp
    · rw [List.length_append]
      exact hnext

theorem add_full (h : b.Holds l) (hfull : b.size ≤ l.length) (x : ℤ) : b.add x = (b, false) := by
  have hhead := h.head_lt
  have hfits := h.fits
  have hne : l ≠ [] := by
    rintro rfl
    exact (Nat.zero_lt_of_lt hhead).not_ge hfull
  have hwraps := (h.wraps_iff hne).mpr (le_antisymm hfits hfull)
  rw [DccpSendBuffer.add, h.isEmpty, List.isEmpty_eq_false_iff.mpr hne, if_neg Bool.false_ne_true,
    if_pos hwraps]

/-- The oldest size is removed. -/
theorem remove (h : b.Holds l) :
    b.remove.2 = l.headD 0 ∧ b.remove.1.Holds l.tail ∧ b.remove.1.size = b.size := by
  have hhead := h.head_lt
  have hfits := h.fits
  have htail := h.tail
  have hempty := h.isEmpty
  unfold DccpSendBuffer.remove
  cases l with
  | nil =>
    have hyes : b.isEmpty = true := hempty
    rw [if_pos hyes]
    exact ⟨rfl, h, rfl⟩
  | cons x l =>
    have hnot : ¬ b.isEmpty = true := by simp [hempty]
    have hwindow := h.window
    rw [List.length_cons, window_succ] at hwindow
    rw [List.length_cons] at hfits htail
    rw [Nat.add_sub_cancel] at htail
    rw [if_neg hnot]
    cases l with
    | nil =>
      have hsame : b.head = b.tail := by rw [htail, List.length_nil, Nat.add_zero,
        Nat.mod_eq_of_lt hhead]
      rw [if_neg (not_not.mpr hsame)]
      refine ⟨h.cell, ⟨hhead, Nat.zero_le _, rfl, ?_, rfl⟩, rfl⟩
      exact hsame.symm.trans (Nat.mod_eq_of_lt hhead).symm
    | cons y l =>
      rw [List.length_cons] at hfits htail
      have hmoved : b.head ≠ b.tail := by
        rw [htail]
        rcases lt_or_ge (b.head + (l.length + 1)) b.size with hlt | hge
        · rw [Nat.mod_eq_of_lt hlt]
          omega
        · rw [Nat.mod_eq_sub_mod hge, Nat.mod_eq_of_lt (by omega)]
          omega
      rw [if_pos hmoved]
      refine ⟨h.cell, ⟨Nat.mod_lt _ (Nat.zero_lt_of_lt hhead), Nat.le_of_succ_le hfits, ?_, ?_, ?_⟩,
        rfl⟩
      · exact hempty
      · change b.tail = ((b.head + 1) % b.size + l.length) % b.size
        rw [Nat.mod_add_mod, htail, Nat.add_assoc, Nat.add_comm 1]
      · exact (window_congr (Nat.mod_mod _ _)).trans (List.cons.inj hwindow).2

/-- The loop fills the ring as far as it has space. -/
theorem advance (h : b.Holds l) (x : ℤ) (n : ℕ) :
    (DccpSendBuffer.advance x n b).Holds
        (l ++ List.replicate (min n (b.size - l.length)) x) ∧
      (DccpSendBuffer.advance x n b).size = b.size := by
  induction n generalizing b l with
  | zero =>
    rw [Nat.zero_min, List.replicate_zero, List.append_nil]
    exact ⟨h, rfl⟩
  | succ n ih =>
    rw [DccpSendBuffer.advance, h.full]
    rcases le_or_gt b.size l.length with hfull | hlt
    · rw [if_pos (decide_eq_true hfull), Nat.sub_eq_zero_of_le hfull, Nat.min_zero,
        List.replicate_zero, List.append_nil]
      exact ⟨h, rfl⟩
    · obtain ⟨-, hadd, hsize⟩ := h.add hlt x
      have hrest := ih hadd
      have hcount : min (n + 1) (b.size - l.length) =
          min n (b.size - (l ++ [x]).length) + 1 := by
        rw [List.length_append, List.length_singleton]
        omega
      rw [if_neg (by simpa using hlt), hcount, List.replicate_succ]
      rw [hsize, List.append_assoc] at hrest
      exact hrest

/-- A call does to the list what it does to the ring. -/
theorem call (h : b.Holds l) (c : SendBufferCall) :
    (b.call c).2 = (c.onList b.size l).2 ∧ (b.call c).1.Holds (c.onList b.size l).1 ∧
      (b.call c).1.size = b.size := by
  cases c with
  | add x =>
    rw [SendBufferCall.onList, DccpSendBuffer.call]
    split_ifs with hlt
    · obtain ⟨hok, hadd, hsize⟩ := h.add hlt x
      exact ⟨congrArg _ hok, hadd, hsize⟩
    · rw [h.add_full (not_lt.mp hlt) x]
      exact ⟨rfl, h, rfl⟩
  | full => exact ⟨congrArg _ h.full, h, rfl⟩
  | empty => exact ⟨congrArg _ h.isEmpty, h, rfl⟩
  | top => exact ⟨congrArg _ h.top, h, rfl⟩
  | remove =>
    obtain ⟨htop, hrest⟩ := h.remove
    exact ⟨congrArg _ htop, hrest⟩
  | advance delta x => exact ⟨rfl, h.advance x delta.toNat⟩

theorem answers (h : b.Holds l) (calls : List SendBufferCall) :
    b.answers calls = listAnswers b.size l calls := by
  induction calls generalizing b l with
  | nil => rfl
  | cons c calls ih =>
    obtain ⟨hanswer, hnext, hsize⟩ := h.call c
    rw [DccpSendBuffer.answers, listAnswers, hanswer, ih hnext, hsize]

end Holds

end DccpSendBuffer

/-- The ring answers any calls as the list of an agent does, whatever size is asked for. -/
theorem sendBuffer_answers (junk : ℕ → ℤ) (cfg : DccpConfig) (size : ℤ)
    (calls : List SendBufferCall) :
    (DccpSendBuffer.new junk size).answers calls =
      listAnswers (DccpAgent.capacity { cfg with sbSize := size.toNat }) [] calls := by
  have hsize : (DccpSendBuffer.new junk size).size =
      DccpAgent.capacity { cfg with sbSize := size.toNat } := by
    change (if size ≤ 0 then 1 else size.toNat) = max size.toNat 1
    split_ifs <;> omega
  rw [(DccpSendBuffer.new_holds junk size).answers, hsize]

end Ns2XPass
