import Ns2XPass.Dccp.AckMap

/-! # Calls of an ack vector

Each operation finds the states of the packets as the last one left them. The
operations that need more space call themselves again with a ring of twice the
size, and fail when the ring has its greatest size.
-/

namespace Ns2XPass

variable {v v' w : AckVector} {items pre post its : List ℕ} {b r n q k seqHead : ℕ}
  {s x : PacketState} {g : ℕ → ℕ → ℕ} {done : AckVector → Prop} {full : Prop}

namespace AckVector

/-- A vector with other items, whose newest packet has the number `seqHead`. -/
structure Moved (v w : AckVector) (items : List ℕ) (seqHead : ℕ) : Prop where
  valid : w.Valid items
  seqHead : w.seqHead = seqHead
  seqTail : w.seqTail = v.seqTail
  ackvCons : w.ackvCons = v.ackvCons

theorem Moved.of_sameSeqs (h : Moved v' w items seqHead) (hs : SameSeqs v v') :
    Moved v w items seqHead :=
  ⟨h.valid, h.seqHead, h.seqTail.trans hs.seqTail, h.ackvCons.trans hs.ackvCons⟩

theorem Results.of_full {p : AckVector} (h : v.Valid items) (hp : p = v) (hfull : full) :
    Results v items (p, false) done full :=
  .inr ⟨rfl, hp ▸ h, hp ▸ ⟨rfl, rfl, rfl⟩, hfull⟩

/-- A ring that cannot be doubled has its greatest size. -/
theorem Valid.maxSize_eq (h : v.Valid items) (hn : maxAckvSize ≤ v.maxSize * 2 ^ 0) :
    v.maxSize = maxAckvSize :=
  h.holds.max_le.antisymm (by simpa using hn)

namespace Valid

theorem pushItems (h : v.Valid items) (hne : items ≠ []) (hc : k ≠ 0) (hr : r < 64)
    (hseq : v.seqHead + (r + 1) * k < 2 ^ 32) (hfits : items.length + k ≤ v.maxSize) :
    Moved v (v.pushItems s r k) (List.replicate k (item s r) ++ items)
      (v.seqHead + (r + 1) * k) := by
  have hpos := List.length_pos_of_ne_nil hne
  have hhead : (v.pushItems s r k).seqHead = v.seqHead + (r + 1) * k := by
    have hsize : v.size ≠ 0 := h.size_eq_zero_iff.not.mpr hne
    change (if v.size ≠ 0 then _ else _) = _
    rw [if_pos hsize, Nat.mod_eq_of_lt hseq]
  have hitems := h.holds.pushItems (s := s) hfits (by omega) hr hc fun he => absurd he hne
  refine ⟨⟨hitems, hhead ▸ hseq, fun _ => ?_⟩, hhead, rfl, rfl⟩
  have hspan := h.span hne
  have htotal : total (List.replicate k (item s r)) = (r + 1) * k := by
    rw [← length_expand, expand_replicate hr, List.length_replicate]
  rw [total_append, htotal, hhead]
  change (r + 1) * k + total items + v.seqTail = _
  omega

theorem addItems (h : v.Valid items) (hne : items ≠ []) (hc : k ≠ 0) (hr : r < 64)
    (hseq : v.seqHead + (r + 1) * k < 2 ^ 32) (hn : maxAckvSize ≤ v.maxSize * 2 ^ n) :
    Results v items (addItems g s r k n v)
      (fun w => Moved v w (List.replicate k (item s r) ++ items)
        (v.seqHead + (r + 1) * k))
      (maxAckvSize < items.length + k) := by
  induction n generalizing v with
  | zero =>
    rw [AckVector.addItems, h.holds.size]
    split_ifs with hlt
    · exact .of_full h rfl (h.maxSize_eq hn ▸ hlt)
    · exact .inl ⟨rfl, h.pushItems hne hc hr hseq (not_lt.mp hlt)⟩
  | succ n ih =>
    rw [AckVector.addItems, h.holds.size]
    split_ifs with hlt
    · refine h.retry hn (fun hmax => hmax ▸ hlt) fun v' hv' hs hn' => ?_
      rcases ih hv' (by rw [hs.seqHead]; exact hseq) hn' with ⟨hok, hm⟩ | hf
      · rw [hs.seqHead] at hm
        exact .inl ⟨hok, hm.of_sameSeqs hs⟩
      · exact .inr hf
    · exact .inl ⟨rfl, h.pushItems hne hc hr hseq (not_lt.mp hlt)⟩

/-- As long as there is space, the ring is not doubled. -/
theorem addItems_eq (h : v.Valid items) (hfits : items.length + k ≤ v.maxSize) :
    AckVector.addItems g s r k n v = (v.pushItems s r k, true) := by
  have hnot : ¬ v.maxSize < v.size + k := by
    rw [h.holds.size]
    omega
  cases n <;> rw [AckVector.addItems, if_neg hnot]

/-- The first packet of an empty vector. -/
theorem addFirst (h : v.Valid []) (htwo : 2 ≤ v.maxSize) (hq : q < 2 ^ 32) :
    ∃ w, addPacketFrom g q s n v = (w, true) ∧ w.Valid [item s 0] ∧ w.seqHead = q ∧
      w.seqTail = q ∧ w.ackvCons = v.ackvCons := by
  have hsize : v.size = 0 := h.holds.size
  have hv : Holds { v with seqHead := q, seqTail := q, head := 0, tail := v.maxSize - 1 } [] :=
    ⟨h.holds.max_le, (by omega : 0 < v.maxSize), hsize, Nat.zero_le _, rfl, by simp,
      by simp⟩
  have hvalid : Valid { v with seqHead := q, seqTail := q, head := 0, tail := v.maxSize - 1 } [] :=
    ⟨hv, hq, by simp⟩
  have hone : ([] : List ℕ).length + 1 ≤ v.maxSize := by
    rw [List.length_nil]
    omega
  have hp := hv.pushItems (s := s) (r := 0) (k := 1) hone (by omega : 1 < v.maxSize)
    (by decide) one_ne_zero fun _ => ⟨rfl, rfl, rfl⟩
  have hhead : (AckVector.pushItems { v with
      seqHead := q, seqTail := q, head := 0, tail := v.maxSize - 1 } s 0 1).seqHead = q :=
    if_neg (not_not.mpr hsize)
  have hadd := hvalid.addItems_eq (g := g) (s := s) (r := 0) (k := 1)
    (n := doublings) hone
  refine ⟨_, ?_, ⟨hp, hhead.symm ▸ hq, fun _ => ?_⟩, hhead, rfl, rfl⟩
  · cases n <;> rw [addPacketFrom] <;> exact (if_pos hsize).trans hadd
  · rw [hhead, total_cons, runlen_item (by decide), total_nil]
    exact Nat.add_comm 1 q

theorem of_expand (h : v.Valid items) (hs : SameSeqs v w) (hw : w.Holds its)
    (he : expand its = (expand items).set (v.seqHead - q) x) :
    ∃ its, Moved v w its v.seqHead ∧ expand its = (expand items).set (v.seqHead - q) x := by
  have ht : total its = total items := by
    rw [← length_expand, he, List.length_set, length_expand]
  exact ⟨its, ⟨h.sameSeqs hs hw ht, hs.seqHead, hs.seqTail, hs.ackvCons⟩, he⟩

/-- The state of a packet in range is set, by a split of its item if need be, unless two more items
may be too many. -/
theorem alterState_or_full (h : v.Valid items) (hne : items ≠ []) (hlo : v.seqTail ≤ q)
    (hhi : q ≤ v.seqHead) :
    (∀ n, ∃ w, AckVector.alterState g q x n v = (w, true) ∧ ∃ its, Moved v w its v.seqHead ∧
      expand its = (expand items).set (v.seqHead - q) x) ∨
    v.maxSize < items.length + 2 ∧ AckVector.alterState g q x 0 v = (v, false) ∧
      ∀ n, AckVector.alterState g q x (n + 1) v =
        v.retry g (AckVector.alterState g q x n) := by
  obtain ⟨pre, b, post, rfl, hf, h₁, h₂⟩ := h.findSeqNum hne hlo hhi
  have hset : (expand (pre ++ b :: post)).set (v.seqHead - q) x = _ := expand_set h₁ h₂
  have hcell := h.holds.cell
  have hspan := h.span hne
  rw [total_append, total_cons] at hspan
  have hlen : (pre ++ b :: post).length = pre.length + 1 + post.length := by simp; omega
  by_cases hsame : itemState b = x
  · left
    intro n
    subst hsame
    refine ⟨v, ?_, h.of_expand ⟨rfl, rfl, rfl⟩ h.holds ?_⟩
    · cases n <;> rw [AckVector.alterState, hf] <;> dsimp only <;> rw [hcell, if_pos rfl]
    · rw [hset, List.set_replicate_self, List.append_assoc, expand_append, expand_cons]
  by_cases hzero : runlen b = 0
  · left
    intro n
    have hitem := h.holds.setItem (c := x.code <<< 6) (item_lt (r := 0) (by decide))
    refine ⟨{ v with vector :=
        Function.update v.vector ((v.head + pre.length) % v.maxSize) (x.code <<< 6) }, ?_,
      h.of_expand ⟨rfl, rfl, rfl⟩ hitem ?_⟩
    · cases n <;> rw [AckVector.alterState, hf] <;> dsimp only <;>
        rw [hcell, if_neg hsame, if_pos hzero]
    · have hrun : runlen (x.code <<< 6) = 0 := runlen_item (r := 0) (by decide)
      have hstate : itemState (x.code <<< 6) = x := itemState_item (r := 0) (by decide)
      have hidx : v.seqHead - total pre - q = 0 := by omega
      rw [hset, expand_append, expand_cons, hrun, hstate, hzero, hidx, List.append_assoc]
      rfl
  obtain ⟨htwo, hthree⟩ := length_splitItems (itemState b) x (runlen b) q
    (v.seqHead - total pre) (v.seqHead - total pre - runlen b)
  by_cases hfull : v.maxSize < v.size + ((splitItems (itemState b) x (runlen b) q
      (v.seqHead - total pre) (v.seqHead - total pre - runlen b)).length - 1)
  · right
    refine ⟨?_, ?_, fun n => ?_⟩
    · rw [h.holds.size] at hfull
      omega
    · rw [AckVector.alterState, hf]
      dsimp only
      rw [hcell, if_neg hsame, if_neg hzero, if_pos hfull]
    · rw [AckVector.alterState, hf]
      dsimp only
      rw [hcell, if_neg hsame, if_neg hzero, if_pos hfull]
  · left
    intro n
    rw [h.holds.size] at hfull
    have hsplit := h.holds.replaceItem htwo (by omega) (splitItems_lt runlen_lt)
    refine ⟨_, ?_, h.of_expand (w := v.replaceItem _ _) ?_ hsplit ?_⟩
    · rw [← h.holds.size] at hfull
      cases n <;> rw [AckVector.alterState, hf] <;> dsimp only <;>
        rw [hcell, if_neg hsame, if_neg hzero, if_neg hfull]
    · unfold AckVector.replaceItem
      dsimp only
      split_ifs <;> exact ⟨rfl, rfl, rfl⟩
    · rw [hset, expand_append, expand_append,
        expand_splitItems (by omega) runlen_lt (by omega) (by omega) (by omega)]

theorem alterState (h : v.Valid items) (hne : items ≠ []) (hlo : v.seqTail ≤ q)
    (hhi : q ≤ v.seqHead) (hn : maxAckvSize ≤ v.maxSize * 2 ^ n) :
    Results v items (AckVector.alterState g q x n v)
      (fun w => ∃ its, Moved v w its v.seqHead ∧
        expand its = (expand items).set (v.seqHead - q) x)
      (maxAckvSize < items.length + 2) := by
  induction n generalizing v with
  | zero =>
    rcases h.alterState_or_full (g := g) (x := x) hne hlo hhi with hok | ⟨hf, he, -⟩
    · obtain ⟨w, he, hw⟩ := hok 0
      rw [he]
      exact .inl ⟨rfl, hw⟩
    · rw [he]
      exact .of_full h rfl (h.maxSize_eq hn ▸ hf)
  | succ n ih =>
    rcases h.alterState_or_full (g := g) (x := x) hne hlo hhi with hok | ⟨hf, -, he⟩
    · obtain ⟨w, he, hw⟩ := hok (n + 1)
      rw [he]
      exact .inl ⟨rfl, hw⟩
    · rw [he]
      refine h.retry hn (fun hmax => hmax ▸ hf) fun v' hv' hs hn' => ?_
      rcases ih hv' (hs.seqTail ▸ hlo) (hs.seqHead ▸ hhi) hn' with ⟨hok, its, hm, hx⟩ | hf
      · rw [hs.seqHead] at hm hx
        exact .inl ⟨hok, its, hm.of_sameSeqs hs, hx⟩
      · exact .inr hf

theorem alterState_of_out (h : v.Valid items)
    (hout : ¬ (items ≠ [] ∧ v.seqTail ≤ q ∧ q ≤ v.seqHead)) :
    AckVector.alterState g q x n v = (v, false) := by
  have hf : v.findSeqNum q = none := by
    rw [AckVector.findSeqNum, if_pos]
    rw [h.size_eq_zero_iff]
    by_contra hin
    push Not at hin
    exact hout ⟨hin.1, hin.2.2, hin.2.1⟩
  cases n <;> rw [AckVector.alterState, hf]

end Valid

theorem Moved.trans {v₁ v₂ v₃ : AckVector} {m : ℕ} (h : Moved v₁ v₂ items m)
    (h' : Moved v₂ v₃ its seqHead) : Moved v₁ v₃ its seqHead :=
  ⟨h'.valid, h'.seqHead, h'.seqTail.trans h.seqTail, h'.ackvCons.trans h.ackvCons⟩

theorem addMissing_eq : v.addMissing g n =
    (addItems g .notRecv ((n - 1) % 64) 1 doublings
      (if 0 < (n - 1) / 64 then (addItems g .notRecv 63 ((n - 1) / 64) doublings v).1
      else v)).1 := rfl

namespace Valid

/-- The states behind the head are the ones of the missing packets. -/
theorem addMissing (h : v.Valid items) (hne : items ≠ []) (hn : n ≠ 0)
    (hseq : v.seqHead + n < 2 ^ 32) (hfits : items.length + (n - 1) / 64 + 1 ≤ v.maxSize) :
    ∃ its, Moved v (v.addMissing g n) its (v.seqHead + n) ∧
      expand its = List.replicate n .notRecv ++ expand items ∧
      its.length = items.length + (n - 1) / 64 + 1 ∧ (v.addMissing g n).maxSize = v.maxSize := by
  have hmod : (n - 1) % 64 < 64 := Nat.mod_lt _ (by decide)
  have hdiv := Nat.div_add_mod (n - 1) 64
  rw [addMissing_eq]
  split_ifs with hpos
  · have hfull := h.pushItems (s := .notRecv) (r := 63) (k := (n - 1) / 64) hne hpos.ne'
      (by decide) (by omega) (by omega)
    have hlast := hfull.valid.pushItems (s := .notRecv) (r := (n - 1) % 64) (k := 1)
      (by simp [hne]) one_ne_zero hmod (by rw [hfull.seqHead]; omega)
      (by
        rw [List.length_append, List.length_replicate]
        change _ ≤ v.maxSize
        omega)
    rw [h.addItems_eq (by omega), hfull.valid.addItems_eq (by
      rw [List.length_append, List.length_replicate]
      change _ ≤ v.maxSize
      omega)]
    have hhead : (v.pushItems .notRecv 63 ((n - 1) / 64)).seqHead + ((n - 1) % 64 + 1) * 1 =
        v.seqHead + n := by
      rw [hfull.seqHead]
      omega
    rw [hhead] at hlast
    refine ⟨_, hfull.trans hlast, ?_, ?_, rfl⟩
    · rw [expand_append, expand_append, expand_replicate hmod, expand_replicate (by decide),
        ← List.append_assoc, ← List.replicate_add]
      congr 2
      omega
    · rw [List.length_append, List.length_append, List.length_replicate, List.length_replicate]
      omega
  · have hlast := h.pushItems (s := .notRecv) (r := (n - 1) % 64) (k := 1) hne
      one_ne_zero hmod (by omega) (by omega)
    rw [h.addItems_eq (by omega)]
    have hhead : v.seqHead + ((n - 1) % 64 + 1) * 1 = v.seqHead + n := by omega
    rw [hhead] at hlast
    refine ⟨_, hlast, ?_, ?_, rfl⟩
    · rw [expand_append, expand_replicate hmod]
      congr 2
      omega
    · rw [List.length_append, List.length_replicate]
      omega

theorem doublings_suffice (h : v.Valid items) : maxAckvSize ≤ v.maxSize * 2 ^ doublings := by
  have hpos := h.holds.pos
  rw [maxAckvSize, doublings]
  omega

/-- The expected packet extends the first item, or gets an item of its own. -/
theorem addExpected (h : v.Valid items) (hne : items ≠ []) (hq : v.seqHead + 1 < 2 ^ 32) :
    Results v items (v.addExpected g (v.seqHead + 1) s)
      (fun w => ∃ its, Moved v w its (v.seqHead + 1) ∧ expand its = s :: expand items)
      (maxAckvSize < items.length + 1) := by
  obtain ⟨b, rest, rfl⟩ := List.exists_cons_of_ne_nil hne
  have hholds : v.Holds ([] ++ b :: rest) := h.holds
  have hhead : (v.head + ([] : List ℕ).length) % v.maxSize = v.head :=
    Nat.mod_eq_of_lt h.holds.head_lt
  have hcell := hholds.cell
  rw [hhead] at hcell
  rw [AckVector.addExpected, hcell]
  split_ifs with hc
  · obtain ⟨hrun, hcode⟩ := hc
    have hb := h.holds.byte b List.mem_cons_self
    have hlt : runlen b < 63 := hrun
    have hstate : itemState b = s := by
      rw [itemState, hcode]
      cases s <;> rfl
    have hsucc : (b + 1) % 2 ^ 8 = item s (runlen b + 1) := by
      have hitem := item_of_byte hb
      rw [hstate, item_eq] at hitem
      have := code_lt (s := s)
      rw [item_eq]
      omega
    have hnew := hholds.setItem (c := (b + 1) % 2 ^ 8) (Nat.mod_lt _ (by decide))
    rw [hhead] at hnew
    have hspan := h.span hne
    rw [total_cons] at hspan
    refine .inl ⟨rfl, _, ⟨⟨⟨hnew.max_le, hnew.head_lt, hnew.size, hnew.fits,
      hnew.window, hnew.tail, hnew.byte⟩, hq, fun _ => ?_⟩, rfl, rfl, rfl⟩, ?_⟩
    · rw [List.nil_append, total_cons, hsucc, runlen_item (by omega)]
      change runlen b + 1 + 1 + total rest + v.seqTail = v.seqHead + 1 + 1
      omega
    · rw [List.nil_append, expand_cons, expand_cons, hsucc, runlen_item (by omega),
        itemState_item (by omega), hstate, List.replicate_succ, List.cons_append]
  · rcases h.addItems (g := g) (s := s) (r := 0) (k := 1) hne one_ne_zero
      (by decide) hq h.doublings_suffice with ⟨hok, hm⟩ | hf
    · refine .inl ⟨hok, _, hm, ?_⟩
      rw [expand_append, expand_replicate (by decide)]
      rfl
    · exact .inr hf

/-- A newer packet is added behind items for the missing ones, unless there is too little space. -/
theorem addNewer_or_full (h : v.Valid items) (hne : items ≠ []) (hlt : v.seqHead < q)
    (hq : q < 2 ^ 32) :
    (∀ n, Results v items (addPacketFrom g q s n v)
      (fun w => ∃ its, Moved v w its q ∧
        expand its = s :: List.replicate (q - v.seqHead - 1) .notRecv ++ expand items)
      (maxAckvSize < items.length + (q - v.seqHead) / 64 + 2)) ∨
    v.maxSize < items.length + (q - v.seqHead) / 64 + 2 ∧
      addPacketFrom g q s 0 v = (v, false) ∧
      ∀ n, addPacketFrom g q s (n + 1) v = v.retry g (addPacketFrom g q s n) := by
  have hsize : v.size ≠ 0 := h.size_eq_zero_iff.not.mpr hne
  rcases lt_or_ge (q - v.seqHead) (2 ^ 31) with hd | hd
  · have hdist : wrap32 ((q : ℤ) - v.seqHead) = (q - v.seqHead : ℕ) := by
      rw [Nat.cast_sub hlt.le]
      apply wrap32_of_lt <;> omega
    rcases eq_or_lt_of_le (Nat.succ_le_of_lt hlt) with rfl | hgap
    · left
      intro n
      have hone : v.seqHead.succ - v.seqHead = 1 := by omega
      rw [hone] at hdist
      have hcall : addPacketFrom g v.seqHead.succ s n v =
          v.addExpected g (v.seqHead + 1) s := by
        cases n <;> rw [addPacketFrom, hdist] <;> dsimp only <;>
          rw [if_neg hsize, if_neg (by decide), if_pos (by decide)]
      rw [hcall, hone]
      rcases h.addExpected (g := g) (s := s) hne hq with hok | ⟨hf, hv, hs, hfl⟩
      · exact .inl hok
      · exact .inr ⟨hf, hv, hs, by omega⟩
    · have hone : (1 : ℤ) < (q - v.seqHead : ℕ) := by omega
      have hroom : v.maxSize <
          v.size + (((q - v.seqHead : ℕ) : ℤ).toNat - 2) / (runLengthMask + 1) + 1 + 1 ↔
          v.maxSize < items.length + (q - v.seqHead - 2) / 64 + 1 + 1 := by
        rw [h.holds.size]
        rfl
      by_cases hfull : v.maxSize < items.length + (q - v.seqHead - 2) / 64 + 1 + 1
      · right
        refine ⟨by omega, ?_, fun n => ?_⟩
        · rw [addPacketFrom, hdist]
          dsimp only
          rw [if_neg hsize, if_pos hone, if_pos (hroom.mpr hfull)]
        · rw [addPacketFrom, hdist]
          dsimp only
          rw [if_neg hsize, if_pos hone, if_pos (hroom.mpr hfull)]
      · left
        intro n
        have hcall : addPacketFrom g q s n v = AckVector.addItems g s 0 1 doublings
            (v.addMissing g (q - v.seqHead - 1)) := by
          cases n <;> rw [addPacketFrom, hdist] <;> dsimp only <;>
            rw [if_neg hsize, if_pos hone, if_neg (hroom.not.mpr hfull)] <;> rfl
        obtain ⟨its, hm, hx, hlen, hmax⟩ := h.addMissing (g := g) (n := q - v.seqHead - 1)
          hne (by omega) (by omega) (by omega)
        have hfits : its.length + 1 ≤ (v.addMissing g (q - v.seqHead - 1)).maxSize := by
          omega
        have hits : its ≠ [] := List.ne_nil_of_length_pos (by omega)
        have hhead : (v.addMissing g (q - v.seqHead - 1)).seqHead + (0 + 1) * 1 = q := by
          rw [hm.seqHead]
          omega
        have hlast := hm.valid.pushItems (s := s) (r := 0) (k := 1) hits one_ne_zero
          (by decide) (hhead.symm ▸ hq) hfits
        rw [hhead] at hlast
        rw [hcall, hm.valid.addItems_eq hfits]
        refine .inl ⟨rfl, _, hm.trans hlast, ?_⟩
        rw [expand_append, expand_replicate (by decide), hx]
        rfl
  · left
    intro n
    have hdist : wrap32 ((q : ℤ) - v.seqHead) = (q : ℤ) - v.seqHead - 2 ^ 32 := by
      apply wrap32_of_ge <;> omega
    have hcall : addPacketFrom g q s n v = v.addOld g q s := by
      cases n <;> rw [addPacketFrom, hdist] <;> dsimp only <;>
        rw [if_neg hsize, if_neg (by omega), if_neg (by omega)]
    have hstate : v.getState q = none := if_pos (.inr (.inl hlt))
    rw [hcall, addOld, hstate]
    exact .of_full h rfl (by rw [maxAckvSize]; omega)

theorem addNewer (h : v.Valid items) (hne : items ≠ []) (hlt : v.seqHead < q) (hq : q < 2 ^ 32)
    (hn : maxAckvSize ≤ v.maxSize * 2 ^ n) :
    Results v items (addPacketFrom g q s n v)
      (fun w => ∃ its, Moved v w its q ∧
        expand its = s :: List.replicate (q - v.seqHead - 1) .notRecv ++ expand items)
      (maxAckvSize < items.length + (q - v.seqHead) / 64 + 2) := by
  induction n generalizing v with
  | zero =>
    rcases h.addNewer_or_full (g := g) (s := s) hne hlt hq with hr | ⟨hf, he, -⟩
    · exact hr 0
    · rw [he]
      exact .of_full h rfl (h.maxSize_eq hn ▸ hf)
  | succ n ih =>
    rcases h.addNewer_or_full (g := g) (s := s) hne hlt hq with hr | ⟨hf, -, he⟩
    · exact hr (n + 1)
    · rw [he]
      refine h.retry hn (fun hmax => hmax ▸ hf) fun v' hv' hs hn' => ?_
      have hr := ih hv' (hs.seqHead ▸ hlt) hn'
      rw [hs.seqHead] at hr
      rcases hr with ⟨hok, its, hm, hx⟩ | hf
      · exact .inl ⟨hok, its, hm.of_sameSeqs hs, hx⟩
      · exact .inr hf

/-- A number that is not newer is looked up, as long as it does not lie too far back. -/
theorem addPacket_of_le (h : v.Valid items) (hne : items ≠ []) (hle : q ≤ v.seqHead)
    (hback : v.seqHead ≤ q + 2 ^ 31) :
    v.addPacket g q s = v.addOld g q s := by
  have hsize : v.size ≠ 0 := h.size_eq_zero_iff.not.mpr hne
  have hdist : wrap32 ((q : ℤ) - v.seqHead) = (q : ℤ) - v.seqHead := by
    apply wrap32_of_lt <;> omega
  rw [addPacket, doublings, addPacketFrom, hdist]
  dsimp only
  rw [if_neg hsize, if_neg (by omega), if_neg (by omega)]

theorem emptied (h : v.Valid items) : v.emptied.Valid [] :=
  ⟨⟨h.holds.max_le, h.holds.head_lt, rfl, Nat.zero_le _, rfl, by simp, by simp⟩,
    h.seqHead_lt, by simp⟩

/-- The items from the head to a place are left. -/
theorem cutAt (h : v.Holds (pre ++ b :: post)) (hq : v.seqHead < 2 ^ 32) (hlt : q < v.seqHead)
    (hspan : total (pre ++ [b]) + q = v.seqHead) :
    (v.cutAt ((v.head + pre.length) % v.maxSize) q).Valid (pre ++ [b]) := by
  have hlist : pre ++ b :: post = pre ++ [b] ++ post := by simp
  have hholds : v.Holds (pre ++ [b] ++ post) := hlist ▸ h
  have hcut := hholds.cut ((q + 1) % 2 ^ 32)
  have hsub := h.place_sub (i := pre.length) (by simp)
  have hlen : (pre ++ [b]).length = pre.length + 1 := by simp
  rw [hlen, Nat.add_sub_cancel] at hcut
  refine ⟨?_, hq, fun _ => ?_⟩
  · rw [AckVector.cutAt, hsub]
    exact hcut
  · change _ + (q + 1) % 2 ^ 32 = v.seqHead + 1
    rw [Nat.mod_eq_of_lt (by omega)]
    omega

/-- The packets up to a number are removed. -/
theorem removePackets (h : v.Valid items) (q : ℕ) :
    ∃ its, (v.removePackets q).Valid its ∧ (v.removePackets q).seqHead = v.seqHead ∧
      expand its = (expand items).take (v.seqHead - q) := by
  rw [AckVector.removePackets]
  split_ifs with hout habove
  · refine ⟨items, h, rfl, (List.take_of_length_le ?_).symm⟩
    rw [h.size_eq_zero_iff] at hout
    rw [length_expand]
    rcases eq_or_ne items [] with rfl | hne
    · exact Nat.zero_le _
    · have hspan := h.span hne
      have hlt := hout.resolve_left hne
      omega
  · refine ⟨[], h.emptied, rfl, ?_⟩
    rw [Nat.sub_eq_zero_of_le habove.le, List.take_zero]
    rfl
  · rw [h.size_eq_zero_iff] at hout
    push Not at hout
    obtain ⟨hne, hlo⟩ := hout
    obtain ⟨pre, b, post, rfl, hf, h₁, h₂⟩ := h.findSeqNum hne hlo (not_lt.mp habove)
    have hspan := h.span hne
    rw [total_append, total_cons] at hspan
    have hcell := h.holds.cell
    have hb := h.holds.byte b (by simp)
    rw [hf]
    dsimp only
    rw [hcell]
    split_ifs with htrim hfirst
    · have hrun : runlen b - (q - (v.seqHead - total pre - runlen b) + 1) < 64 := by
        have := runlen_lt (b := b)
        omega
      have hitem : b - (q - (v.seqHead - total pre - runlen b) + 1) = item (itemState b)
          (runlen b - (q - (v.seqHead - total pre - runlen b) + 1)) := by
        have hbyte := item_of_byte hb
        rw [item_eq] at hbyte ⊢
        omega
      rw [hitem]
      have hset := h.holds.setItem (item_lt (s := itemState b) hrun)
      refine ⟨_, cutAt hset h.seqHead_lt (by change q < v.seqHead; omega) ?_, rfl, ?_⟩
      · rw [total_append, total_cons, runlen_item hrun, total_nil]
        change _ = v.seqHead
        omega
      · have htake : v.seqHead - q = total pre + (v.seqHead - total pre - q) := by omega
        rw [expand_append, expand_append, expand_cons, expand_cons, htake, ← length_expand,
          List.take_length_add_append, length_expand, List.take_append_of_le_length (by
            rw [List.length_replicate]
            omega), List.take_replicate, runlen_item hrun, itemState_item hrun, expand_nil,
          List.append_nil]
        congr 2
        omega
    · have hzero : (v.head + 0) % v.maxSize = v.head := Nat.mod_eq_of_lt h.holds.head_lt
      have hpre := (h.holds.place_eq_iff (i := pre.length) (j := 0) (by simp) (by simp)).mp
        (hfirst.trans hzero.symm)
      obtain rfl := List.eq_nil_of_length_eq_zero hpre
      rw [total_nil] at h₁ h₂ htrim
      refine ⟨[], h.emptied, rfl, ?_⟩
      rw [show v.seqHead - q = 0 by omega]
      rfl
    · rcases pre.eq_nil_or_concat with rfl | ⟨pre, p, rfl⟩
      · exact absurd (Nat.mod_eq_of_lt h.holds.head_lt) hfirst
      · rw [List.concat_eq_append] at h h₁ h₂ htrim hspan ⊢
        have hlist : pre ++ [p] ++ b :: post = pre ++ p :: b :: post := by simp
        have hlen : (pre ++ [p]).length = pre.length + 1 := by simp
        have hback := back_mod (p := (v.head + (pre ++ [p]).length) % v.maxSize) (n := v.maxSize)
          (k := 1) h.holds.pos
        have hplace : ((v.head + (pre ++ [p]).length) % v.maxSize + v.maxSize - 1) % v.maxSize =
            (v.head + pre.length) % v.maxSize := by
          have hmod : ((v.head + (pre ++ [p]).length) % v.maxSize + v.maxSize - 1) % v.maxSize ≡
              v.head + pre.length [MOD v.maxSize] := by
            apply Nat.ModEq.add_right_cancel' 1
            refine hback.trans ((Nat.mod_mod _ _).trans ?_)
            rw [hlen, Nat.add_assoc]
          exact (Nat.mod_mod _ _).symm.trans hmod
        have hq : v.seqHead - q = total (pre ++ [p]) := by omega
        have hpos : 0 < total (pre ++ [p]) := total_pos (by simp)
        have hrest : expand (pre ++ [p] ++ b :: post) =
            expand (pre ++ [p]) ++ expand (b :: post) := expand_append
        rw [hplace]
        refine ⟨_, cutAt (hlist ▸ h.holds) h.seqHead_lt (by omega) (by omega), rfl, ?_⟩
        rw [hq, hrest, ← length_expand, List.take_left]

end Valid

end AckVector

end Ns2XPass
