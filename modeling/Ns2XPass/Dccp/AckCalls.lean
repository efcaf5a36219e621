import Ns2XPass.Dccp.AckRuns

/-! # Runs of an ack vector

An agent adds packets, alters their states, removes old ones, and the ring grows.
In every run the ring denotes a map, and each call changes this map as described
or leaves it as it is.
-/

namespace Ns2XPass

variable {v w : AckVector} {items its : List ℕ} {q n : ℕ} {s x : PacketState} {g : ℕ → ℕ → ℕ}

inductive AckCall
  | addPacket (seqnum : ℕ) (state : PacketState)
  | alterState (seqnum : ℕ) (newState : PacketState)
  | removePackets (seqnum : ℕ)
  | doubleMaxSize

namespace AckVector

def call (junk : ℕ → ℕ → ℕ) (v : AckVector) : AckCall → AckVector
  | .addPacket seqnum state => (v.addPacket junk seqnum state).1
  | .alterState seqnum newState => (alterState junk seqnum newState doublings v).1
  | .removePackets seqnum => v.removePackets seqnum
  | .doubleMaxSize => (v.doubleMaxSize junk).1

/-- A number that follows the newest one beyond the greatest number of 32 bits has wrapped. A ring
of the greatest size has no space for the packets up to any other number that is so far back. -/
def Wrapped (v : AckVector) (seqnum : ℕ) : Prop :=
  v.size ≠ 0 ∧ seqnum + 2 ^ 32 < v.seqHead + maxAckvSize * (runLengthMask + 1)

/-- The effect of a call on the map. A call that fails has no effect, and it only fails if there
would be too many items. -/
def Effect (v : AckVector) (p : AckVector × Bool) (after : ℕ → Option PacketState) (more : ℕ) :
    Prop :=
  (p.2 = true ∧ p.1.map = after) ∨
    (p.2 = false ∧ p.1.map = v.map ∧ maxAckvSize < v.size + more)

/-- The ring denotes a map from the numbers between its tail and its head, and each call has its
effect on this map. -/
structure Denotes (junk : ℕ → ℕ → ℕ) (v : AckVector) : Prop where
  size_le : v.size ≤ v.maxSize
  tail : v.size ≠ 0 → v.tail = (v.head + (v.size - 1)) % v.maxSize
  runs : v.size ≠ 0 →
    (v.contents.map fun item => runlen item + 1).sum + v.seqTail = v.seqHead + 1
  isSome_map : ∀ q, (v.map q).isSome = true ↔ v.size ≠ 0 ∧ v.seqTail ≤ q ∧ q ≤ v.seqHead
  getState : ∀ q, v.getState q = v.map q
  addFirst : ∀ q state, v.size = 0 → q < 2 ^ 32 →
    (v.addPacket junk q state).2 = true ∧
      (v.addPacket junk q state).1.map = Function.update (fun _ => none) q (some state)
  addNewer : ∀ q state, v.size ≠ 0 → v.seqHead < q → q < 2 ^ 32 →
    v.Effect (v.addPacket junk q state) (fun p =>
      if p = q then some state
      else if v.seqHead < p ∧ p < q then some .notRecv else v.map p) ((q - v.seqHead) / 64 + 2)
  addInRange : ∀ q state curr, v.map q = some curr →
    v.Effect (v.addPacket junk q state) (Function.update v.map q (some (v.ackvCons curr state))) 2
  addOutOfRange : ∀ q state, v.size ≠ 0 → q ≤ v.seqHead → v.map q = none → ¬ v.Wrapped q →
    (v.addPacket junk q state).2 = false ∧ (v.addPacket junk q state).1.map = v.map
  alterInRange : ∀ q new, (v.map q).isSome = true →
    v.Effect (AckVector.alterState junk q new doublings v) (Function.update v.map q (some new)) 2
  alterOutOfRange : ∀ q new, v.map q = none →
    (AckVector.alterState junk q new doublings v).2 = false ∧
      (AckVector.alterState junk q new doublings v).1.map = v.map
  removePackets : ∀ q p, (v.removePackets q).map p = if p ≤ q then none else v.map p
  doubleMaxSize : (v.doubleMaxSize junk).1.map = v.map

end AckVector

/-- The calls of an agent, whose sequence numbers do not wrap. -/
def ackMachine (junk : ℕ → ℕ → ℕ) : Machine AckVector AckCall Empty where
  Init v := ∃ initialSize cons, 2 ≤ initialSize ∧ initialSize ≤ maxAckvSize ∧
    v = { AckVector.new junk initialSize with ackvCons := cons }
  Enabled v
    | .addPacket seqnum _ => seqnum < 2 ^ 32 ∧ ¬ v.Wrapped seqnum
    | _ => True
  step v c := .ok (v.call junk c)

namespace AckVector

/-- What is left of a call that yields other items. -/
theorem Results.of_moved {p : AckVector × Bool} {done : List ℕ → Prop} {m : ℕ} {full : Prop}
    (h : Results v items p (fun w => ∃ its, Moved v w its m ∧ done its) full) :
    ∃ its, p.1.Valid its := by
  rcases h with ⟨-, its, hm, -⟩ | ⟨-, hv, -, -⟩
  · exact ⟨its, hm.valid⟩
  · exact ⟨items, hv⟩

namespace Valid

theorem init {initialSize : ℕ} {cons : PacketState → PacketState → PacketState}
    (hlo : 0 < initialSize) (hhi : initialSize ≤ maxAckvSize) :
    Valid { AckVector.new g initialSize with ackvCons := cons } [] :=
  ⟨⟨hhi, hlo, rfl, Nat.zero_le _, rfl, by simp, by simp⟩, Nat.two_pow_pos 32, by simp⟩

/-- A call that fails leaves the map as it is. -/
theorem effect (h : v.Valid items) {p : AckVector × Bool} {done : AckVector → Prop}
    {after : ℕ → Option PacketState} {more : ℕ}
    (hp : Results v items p done (maxAckvSize < items.length + more))
    (hd : ∀ w, done w → w.map = after) : v.Effect p after more := by
  rcases hp with ⟨hok, hw⟩ | ⟨hno, hv, hs, hfull⟩
  · exact .inl ⟨hok, hd _ hw⟩
  · refine .inr ⟨hno, ?_, h.holds.size ▸ hfull⟩
    rw [hv.map_eq, h.map_eq, hs.seqHead]

theorem map_nil (h : v.Valid []) : v.map = fun _ => none := by
  funext q
  rw [h.map_eq, mapOf, expand_nil]
  simp

theorem map_first (h : v.Valid [item state 0]) (hq : v.seqHead = q) :
    v.map = Function.update (fun _ => none) q (some state) := by
  funext p
  rw [h.map_eq, hq, mapOf, expand_cons, runlen_item (by decide), itemState_item (by decide)]
  by_cases hp : p = q
  · subst hp
    simp
  · rw [Function.update_of_ne hp]
    split_ifs with hle
    · rw [List.getElem?_eq_none]
      simp
      omega
    · rfl

theorem addPacketFrom_farBack (h : v.Valid items) (hne : items ≠ [])
    (hback : q + 2 ^ 31 < v.seqHead) (hfar : v.seqHead + 65535 * 64 ≤ q + 2 ^ 32) :
    addPacketFrom g q s 0 v = (v, false) ∧
      ∀ n, addPacketFrom g q s (n + 1) v =
        v.retry g (addPacketFrom g q s n) := by
  have hsize : v.size ≠ 0 := h.size_eq_zero_iff.not.mpr hne
  have hlt := h.seqHead_lt
  have hmax : v.maxSize ≤ 65535 := h.holds.max_le
  have hdist : wrap32 ((q : ℤ) - v.seqHead) = (q + 2 ^ 32 - v.seqHead : ℕ) := by
    rw [wrap32_of_neg (by omega) (by omega)]
    omega
  have hone : (1 : ℤ) < (q + 2 ^ 32 - v.seqHead : ℕ) := by omega
  have hroom : v.maxSize < v.size +
      (((q + 2 ^ 32 - v.seqHead : ℕ) : ℤ).toNat - 2) / (runLengthMask + 1) + 1 + 1 := by
    rw [Int.toNat_natCast, runLengthMask]
    omega
  refine ⟨?_, fun n => ?_⟩
  · rw [addPacketFrom, hdist]
    dsimp only
    rw [if_neg hsize, if_pos hone, if_pos hroom]
  · rw [addPacketFrom, hdist]
    dsimp only
    rw [if_neg hsize, if_pos hone, if_pos hroom]

/-- A number so far behind the newest one that the difference of both wraps is taken for a newer
one, for which there is no space. -/
theorem addFarBack (h : v.Valid items) (hne : items ≠ []) (hback : q + 2 ^ 31 < v.seqHead)
    (hfar : v.seqHead + 65535 * 64 ≤ q + 2 ^ 32) (hn : maxAckvSize ≤ v.maxSize * 2 ^ n) :
    Results v items (addPacketFrom g q s n v) (fun _ => False) True := by
  induction n generalizing v with
  | zero =>
    rw [(h.addPacketFrom_farBack hne hback hfar).1]
    exact .of_full h rfl trivial
  | succ n ih =>
    rw [(h.addPacketFrom_farBack hne hback hfar).2 n]
    refine h.retry hn (fun _ => trivial) fun v' hv' hs hn' => ?_
    rcases ih hv' (hs.seqHead ▸ hback) (hs.seqHead ▸ hfar) hn' with ⟨-, hno⟩ | hf
    · exact hno.elim
    · exact .inr hf

/-- A packet in range is combined with the state it had. -/
theorem addOld (h : v.Valid items) (hne : items ≠ []) {curr : PacketState}
    (hcurr : v.map q = some curr) :
    Results v items (v.addOld g q s)
      (fun w => ∃ its, Moved v w its v.seqHead ∧
        expand its = (expand items).set (v.seqHead - q) (v.ackvCons curr s))
      (maxAckvSize < items.length + 2) := by
  obtain ⟨-, hlo, hhi⟩ := h.isSome_map.mp (by rw [hcurr]; rfl)
  rw [AckVector.addOld, h.getState, hcurr]
  exact h.alterState hne hlo hhi h.doublings_suffice

theorem addOld_of_none (h : v.Valid items) (hnone : v.map q = none) :
    v.addOld g q s = (v, false) := by
  rw [AckVector.addOld, h.getState, hnone]

/-- A number that is not newer leaves the map as it is, if it is not in range. -/
theorem addPacket_of_none (h : v.Valid items) (hne : items ≠ []) (hle : q ≤ v.seqHead)
    (hwrap : ¬ v.Wrapped q) (hnone : v.map q = none) :
    Results v items (v.addPacket g q s) (fun _ => False) True := by
  rcases le_or_gt v.seqHead (q + 2 ^ 31) with hback | hback
  · rw [h.addPacket_of_le hne hle hback, h.addOld_of_none hnone]
    exact .of_full h rfl trivial
  · apply h.addFarBack hne hback _ h.doublings_suffice
    by_contra hlt
    exact hwrap ⟨h.size_eq_zero_iff.not.mpr hne, not_le.mp hlt⟩

theorem addPacket_of_some (h : v.Valid items) (hne : items ≠ []) {curr : PacketState}
    (hcurr : v.map q = some curr) :
    Results v items (v.addPacket g q s)
      (fun w => ∃ its, Moved v w its v.seqHead ∧
        expand its = (expand items).set (v.seqHead - q) (v.ackvCons curr s))
      (maxAckvSize < items.length + 2) := by
  obtain ⟨-, hlo, hhi⟩ := h.isSome_map.mp (by rw [hcurr]; rfl)
  have hspan := h.span hne
  have hlen : items.length ≤ 65535 := h.holds.fits.trans h.holds.max_le
  have hle : total items ≤ 64 * items.length := total_le
  rw [h.addPacket_of_le hne hhi (by omega)]
  exact h.addOld hne hcurr

theorem doubleMaxSize (h : v.Valid items) :
    ∃ w ok, v.doubleMaxSize g = (w, ok) ∧ w.Valid items ∧ SameSeqs v w := by
  by_cases hmax : v.maxSize = maxAckvSize
  · exact ⟨v, false, if_pos hmax, h, ⟨rfl, rfl, rfl⟩⟩
  · obtain ⟨w, he, hw, hs, -⟩ := h.holds.doubleMaxSize (g := g) hmax
    exact ⟨w, true, he, h.sameSeqs hs hw rfl, hs⟩

theorem map_set (h : v.Valid items) {q : ℕ} (hq : (v.map q).isSome = true)
    (hw : Moved v w its v.seqHead) (he : expand its = (expand items).set (v.seqHead - q) x) :
    w.map = Function.update v.map q (some x) := by
  obtain ⟨hne, hlo, hhi⟩ := h.isSome_map.mp hq
  have hspan := h.span hne
  rw [hw.valid.map_eq, hw.seqHead, he, mapOf_set (by rw [length_expand]; omega) hhi, h.map_eq]

theorem map_push (h : v.Valid items) (hlt : v.seqHead < q) (hw : Moved v w its q)
    (he : expand its = s :: List.replicate (q - v.seqHead - 1) .notRecv ++ expand items) :
    w.map = fun p => if p = q then some s
      else if v.seqHead < p ∧ p < q then some .notRecv else v.map p := by
  funext p
  rw [hw.valid.map_eq, hw.seqHead, he, mapOf_push hlt, h.map_eq]

end Valid

end AckVector

/-- The first packet is not added to a ring of one item, which `addItems` would leave as it is. -/
def AckCall.Roomy (v : AckVector) : AckCall → Prop
  | .addPacket _ _ => v.size = 0 → 2 ≤ v.maxSize
  | _ => True

namespace AckVector

/-- A ring of another size, which is not smaller. -/
structure Grown (v w : AckVector) : Prop where
  le : v.maxSize ≤ w.maxSize
  max_le : w.maxSize ≤ maxAckvSize

theorem Grown.trans (h : Grown v w) {w' : AckVector} (h' : Grown w w') : Grown v w' :=
  ⟨h.le.trans h'.le, h'.max_le⟩

theorem Grown.refl (h : v.maxSize ≤ maxAckvSize) : Grown v v := ⟨le_rfl, h⟩

theorem doubleMaxSize_grown (h : v.maxSize ≤ maxAckvSize) : Grown v (v.doubleMaxSize g).1 := by
  unfold doubleMaxSize
  by_cases hmax : v.maxSize = maxAckvSize
  · rw [if_pos hmax]
    exact .refl h
  · rw [if_neg hmax]
    exact ⟨le_min (by omega) h, min_le_right _ _⟩

theorem retry_grown {again : AckVector → AckVector × Bool} (h : v.maxSize ≤ maxAckvSize)
    (hagain : ∀ w, w.maxSize ≤ maxAckvSize → Grown w (again w).1) :
    Grown v (v.retry g again).1 := by
  have hd := doubleMaxSize_grown (g := g) h
  unfold retry
  dsimp only
  split_ifs
  · exact hd.trans (hagain _ hd.max_le)
  · exact hd

theorem addItems_grown {r k : ℕ} (h : v.maxSize ≤ maxAckvSize) :
    Grown v (addItems g s r k n v).1 := by
  induction n generalizing v with
  | zero =>
    unfold addItems
    split_ifs <;> exact ⟨le_rfl, h⟩
  | succ n ih =>
    unfold addItems
    split_ifs
    · exact retry_grown h fun _ hw => ih hw
    · exact ⟨le_rfl, h⟩

theorem replaceItem_maxSize {place : ℕ} {its : List ℕ} :
    (v.replaceItem place its).maxSize = v.maxSize := by
  unfold replaceItem
  dsimp only
  split_ifs <;> rfl

theorem alterState_grown (h : v.maxSize ≤ maxAckvSize) :
    Grown v (alterState g q x n v).1 := by
  induction n generalizing v with
  | zero =>
    unfold alterState
    cases v.findSeqNum q with
    | none => exact .refl h
    | some p =>
      dsimp only
      split_ifs
      · exact .refl h
      · exact ⟨le_rfl, h⟩
      · exact .refl h
      · exact ⟨replaceItem_maxSize.ge, replaceItem_maxSize.trans_le h⟩
  | succ n ih =>
    unfold alterState
    cases v.findSeqNum q with
    | none => exact .refl h
    | some p =>
      dsimp only
      split_ifs
      · exact .refl h
      · exact ⟨le_rfl, h⟩
      · exact retry_grown h fun _ hw => ih hw
      · exact ⟨replaceItem_maxSize.ge, replaceItem_maxSize.trans_le h⟩

theorem addMissing_grown (h : v.maxSize ≤ maxAckvSize) : Grown v (v.addMissing g n) := by
  unfold addMissing
  dsimp only
  split_ifs
  · have hfull := addItems_grown (g := g) (s := .notRecv) (r := runLengthMask)
      (k := (n - 1) / (runLengthMask + 1)) (n := doublings) h
    exact hfull.trans (addItems_grown hfull.max_le)
  · exact addItems_grown h

theorem addExpected_grown (h : v.maxSize ≤ maxAckvSize) : Grown v (v.addExpected g q s).1 := by
  unfold addExpected
  dsimp only
  split_ifs
  · exact ⟨le_rfl, h⟩
  · exact addItems_grown h

theorem addOld_grown (h : v.maxSize ≤ maxAckvSize) : Grown v (v.addOld g q s).1 := by
  unfold addOld
  cases v.getState q with
  | none => exact .refl h
  | some curr => exact alterState_grown h

theorem addFirst_grown (h : v.maxSize ≤ maxAckvSize) :
    Grown v (addItems g s 0 1 doublings
      { v with seqHead := q, seqTail := q, head := 0, tail := v.maxSize - 1 }).1 := by
  obtain ⟨hle, hmax⟩ := addItems_grown (g := g) (s := s) (r := 0) (k := 1) (n := doublings)
    (v := { v with seqHead := q, seqTail := q, head := 0, tail := v.maxSize - 1 }) h
  exact ⟨hle, hmax⟩

theorem addPacketFrom_grown (h : v.maxSize ≤ maxAckvSize) :
    Grown v (addPacketFrom g q s n v).1 := by
  induction n generalizing v with
  | zero =>
    unfold addPacketFrom
    dsimp only
    split_ifs
    · exact addFirst_grown h
    · exact .refl h
    · exact (addMissing_grown h).trans (addItems_grown (addMissing_grown h).max_le)
    · exact addExpected_grown h
    · exact addOld_grown h
  | succ n ih =>
    unfold addPacketFrom
    dsimp only
    split_ifs
    · exact addFirst_grown h
    · exact retry_grown h fun _ hw => ih hw
    · exact (addMissing_grown h).trans (addItems_grown (addMissing_grown h).max_le)
    · exact addExpected_grown h
    · exact addOld_grown h

theorem removePackets_maxSize : (v.removePackets q).maxSize = v.maxSize := by
  unfold removePackets
  split_ifs
  · rfl
  · rfl
  · cases v.findSeqNum q with
    | none => rfl
    | some p =>
      dsimp only
      split_ifs <;> rfl

/-- No call makes the ring smaller. -/
theorem call_grown (h : v.maxSize ≤ maxAckvSize) (c : AckCall) : Grown v (v.call g c) := by
  cases c with
  | addPacket q s => exact addPacketFrom_grown h
  | alterState q x => exact alterState_grown h
  | removePackets q => exact ⟨removePackets_maxSize.ge, removePackets_maxSize.trans_le h⟩
  | doubleMaxSize => exact doubleMaxSize_grown h

theorem Valid.call (h : v.Valid items) {c : AckCall} (he : (ackMachine g).Enabled v c)
    (hroom : c.Roomy v) : ∃ its, (v.call g c).Valid its := by
  cases c with
  | addPacket q s =>
    obtain ⟨hq, hwrap⟩ := he
    by_cases hne : items = []
    · subst hne
      obtain ⟨w, hw, hv, -⟩ := h.addFirst (g := g) (s := s) (n := doublings)
        (hroom h.holds.size) hq
      rw [AckVector.call, AckVector.addPacket, hw]
      exact ⟨_, hv⟩
    · rcases lt_or_ge v.seqHead q with hlt | hle
      · exact (h.addNewer hne hlt hq h.doublings_suffice).of_moved
      · cases hcurr : v.map q with
        | none =>
          rcases h.addPacket_of_none (g := g) (s := s) hne hle hwrap hcurr with
            ⟨-, hno⟩ | ⟨-, hv, -, -⟩
          · exact hno.elim
          · exact ⟨items, hv⟩
        | some curr => exact (h.addPacket_of_some hne hcurr).of_moved
  | alterState q x =>
    by_cases hin : items ≠ [] ∧ v.seqTail ≤ q ∧ q ≤ v.seqHead
    · exact (h.alterState hin.1 hin.2.1 hin.2.2 h.doublings_suffice).of_moved
    · rw [AckVector.call, h.alterState_of_out hin]
      exact ⟨items, h⟩
  | removePackets q =>
    obtain ⟨its, hv, -⟩ := h.removePackets q
    exact ⟨its, hv⟩
  | doubleMaxSize =>
    obtain ⟨w, ok, he, hw, -⟩ := h.doubleMaxSize (g := g)
    rw [AckVector.call, he]
    exact ⟨items, hw⟩

end AckVector

theorem AckCall.Roomy.of_two_le {c : AckCall} (h : 2 ≤ v.maxSize) : c.Roomy v := by
  cases c with
  | addPacket q s => exact fun _ => h
  | alterState q x => trivial
  | removePackets q => trivial
  | doubleMaxSize => trivial

theorem ackMachine.invariant (g : ℕ → ℕ → ℕ) :
    (ackMachine g).Invariant fun v => (∃ items, v.Valid items) ∧ 2 ≤ v.maxSize where
  init := by
    rintro v ⟨initialSize, cons, hlo, hhi, rfl⟩
    exact ⟨⟨[], .init (by omega) hhi⟩, hlo⟩
  step := by
    rintro v c v' ⟨⟨items, h⟩, htwo⟩ he hs
    obtain rfl : v.call g c = v' := Except.ok.inj hs
    exact ⟨h.call he (.of_two_le htwo), htwo.trans (AckVector.call_grown h.holds.max_le c).le⟩

namespace AckVector

namespace Valid

theorem map_removePackets (h : v.Valid items) (q p : ℕ) :
    (v.removePackets q).map p = if p ≤ q then none else v.map p := by
  obtain ⟨its, hv, hs, he⟩ := h.removePackets q
  rw [hv.map_eq, hs, he]
  rcases le_or_gt q v.seqHead with hq | hq
  · rw [mapOf_take p hq, h.map_eq]
  · rw [Nat.sub_eq_zero_of_le hq.le, List.take_zero, h.map_eq, mapOf, mapOf]
    split_ifs <;> first | rfl | omega

theorem denotes (h : v.Valid items) (htwo : 2 ≤ v.maxSize) (g : ℕ → ℕ → ℕ) : v.Denotes g where
  size_le := h.holds.size ▸ h.holds.fits
  tail hsize := by
    rw [h.holds.size]
    exact h.holds.tail (h.size_eq_zero_iff.not.mp hsize)
  runs hsize := by
    rw [h.contents_eq]
    exact h.span (h.size_eq_zero_iff.not.mp hsize)
  isSome_map q := by
    rw [h.isSome_map, ne_eq, ne_eq, h.size_eq_zero_iff]
  getState := h.getState
  addFirst q s hsize hq := by
    obtain rfl := h.size_eq_zero_iff.mp hsize
    obtain ⟨w, hw, hv, hs, -⟩ := h.addFirst (g := g) (s := s) (n := doublings) htwo hq
    rw [AckVector.addPacket, hw]
    exact ⟨rfl, hv.map_first hs⟩
  addNewer q s hsize hlt hq := by
    have hne := h.size_eq_zero_iff.not.mp hsize
    apply h.effect (h.addNewer hne hlt hq h.doublings_suffice)
    rintro w ⟨its, hm, he⟩
    exact h.map_push hlt hm he
  addInRange q s curr hcurr := by
    have hin : (v.map q).isSome = true := by rw [hcurr]; rfl
    apply h.effect (h.addPacket_of_some (h.isSome_map.mp hin).1 hcurr)
    rintro w ⟨its, hm, he⟩
    exact h.map_set hin hm he
  addOutOfRange q s hsize hle hnone hwrap := by
    have hne := h.size_eq_zero_iff.not.mp hsize
    rcases h.addPacket_of_none (g := g) (s := s) hne hle hwrap hnone with
      ⟨-, hno⟩ | ⟨hf, hv, hs, -⟩
    · exact hno.elim
    · exact ⟨hf, by rw [hv.map_eq, h.map_eq, hs.seqHead]⟩
  alterInRange q x hin := by
    obtain ⟨hne, hlo, hhi⟩ := h.isSome_map.mp hin
    apply h.effect (h.alterState hne hlo hhi h.doublings_suffice)
    rintro w ⟨its, hm, he⟩
    exact h.map_set hin hm he
  alterOutOfRange q x hnone := by
    have hout : ¬ (items ≠ [] ∧ v.seqTail ≤ q ∧ q ≤ v.seqHead) := by
      rw [← h.isSome_map, hnone]
      simp
    rw [h.alterState_of_out hout]
    exact ⟨rfl, rfl⟩
  removePackets := h.map_removePackets
  doubleMaxSize := by
    obtain ⟨w, ok, he, hw, hs⟩ := h.doubleMaxSize (g := g)
    rw [he, hw.map_eq, h.map_eq, hs.seqHead]

end Valid

end AckVector

/-- In every run the ring denotes a map, and each call has its effect on this map. -/
theorem ackVector_denotes (junk : ℕ → ℕ → ℕ) {v : AckVector}
    (hr : (ackMachine junk).Reachable v) : v.Denotes junk := by
  obtain ⟨⟨items, h⟩, htwo⟩ := (ackMachine.invariant junk).reachable hr
  exact h.denotes htwo junk

theorem ackVector_denotes_one :
    AckVector.Denotes (fun _ _ => 0) ((AckVector.new (fun _ _ => 0) 2).addPacket (fun _ _ => 0) 5
      .recv).1 :=
  ackVector_denotes _ (.step (x := .addPacket 5 .recv)
    (.init ⟨2, newAckvCons, by decide, by decide, rfl⟩) ⟨by decide, fun h => h.1 rfl⟩ rfl)

/-- For a gap that needs more items than fit in the greatest ring, the newer packet is not
added. -/
theorem ackVector_gap_too_wide :
    ∃ v, (ackMachine fun _ _ => 0).Reachable v ∧ v.size ≠ 0 ∧ v.seqHead < 2 ^ 23 ∧
      (v.addPacket (fun _ _ => 0) (2 ^ 23) .recv).2 = false ∧
      (v.addPacket (fun _ _ => 0) (2 ^ 23) .recv).1.map (2 ^ 23) = none :=
  ⟨((AckVector.new (fun _ _ => 0) 2).addPacket (fun _ _ => 0) 0 .recv).1,
    .step (x := .addPacket 0 .recv) (.init ⟨2, newAckvCons, by decide, by decide, rfl⟩)
      ⟨by decide, fun h => h.1 rfl⟩ rfl, by decide, by decide, by decide +kernel,
    by decide +kernel⟩

end Ns2XPass
