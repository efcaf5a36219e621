import Ns2XPass.Dccp.AckItems
import Ns2XPass.Library.Machine

/-! # The ack vector as a map

An ack vector stands for a map from the sequence numbers between its tail and
its head to packet states. The operations change the map as their descriptions
say, unless there is no more space.
-/

namespace Ns2XPass

variable {v v' : AckVector} {items pre post its : List ℕ} {b r i n q k t : ℕ}
  {s : PacketState} {g : ℕ → ℕ → ℕ}

theorem sub32_of_le {a : ℕ} (hb : b ≤ a) (ha : a < 2 ^ 32) : sub32 a b = a - b := by
  rw [sub32, show a + 2 ^ 32 - b = a - b + 2 ^ 32 by omega, Nat.add_mod_right]
  exact Nat.mod_eq_of_lt (by omega)

namespace AckVector

namespace Holds

theorem findFrom (h : v.Holds (pre ++ post)) (hpost : post ≠ []) (hn : post.length ≤ n)
    (hs : t < 2 ^ 32) (hhi : q ≤ t) (hlo : t < q + total post)
    (htot : total post ≤ t + 1) :
    ∃ a b c, post = a ++ b :: c ∧
      v.findFrom q n ((v.head + pre.length) % v.maxSize) t =
        some ((v.head + (pre.length + a.length)) % v.maxSize, t - total a,
          t - total a - runlen b) ∧
      q + total a ≤ t ∧ t ≤ q + total a + runlen b := by
  induction post generalizing pre n t with
  | nil => exact absurd rfl hpost
  | cons b post ih =>
    obtain ⟨n, rfl⟩ : ∃ j, n = j + 1 := ⟨n - 1, by rw [List.length_cons] at hn; omega⟩
    rw [total_cons] at hlo htot
    rw [AckVector.findFrom, h.cell, sub32_of_le (by omega) hs]
    dsimp only
    split_ifs with hin hstop
    · exact ⟨[], b, post, rfl, by simp, by simpa using hhi, by simp; omega⟩
    · exfalso
      have hne : post ≠ [] := by
        rintro rfl
        rw [total_nil] at hlo
        omega
      have hlen := List.length_pos_of_ne_nil hne
      have hfits := h.fits
      rw [h.tail (by simp), Nat.mod_add_mod, Nat.mod_add_mod, List.length_append,
        List.length_cons] at hstop
      rw [List.length_append, List.length_cons] at hfits
      exact mod_ne_of_window (a := v.head + 1) (n := v.maxSize) (i := v.head + pre.length + 1)
        (j := v.head + (pre.length + (post.length + 1) - 1) + 1)
        (by omega) (by omega) (by omega) (by omega) (by omega) hstop
    · have hne : post ≠ [] := by
        rintro rfl
        rw [total_nil] at hlo
        omega
      have hlist : pre ++ b :: post = pre ++ [b] ++ post := by simp
      rw [hlist] at h
      obtain ⟨a, b', c, rfl, hf, h₁, h₂⟩ := ih (n := n) (t := t - runlen b - 1) h hne
        (by rw [List.length_cons] at hn; omega) (by omega) (by omega) (by omega) (by omega)
      have hstart : t - runlen b - 1 - total a = t - total (b :: a) := by
        rw [total_cons]
        omega
      have hplace : pre.length + 1 + a.length = pre.length + (b :: a).length := by
        rw [List.length_cons]
        omega
      rw [List.length_append, List.length_singleton, hstart, hplace] at hf
      refine ⟨b :: a, b', c, rfl, ?_, ?_, ?_⟩
      · rw [sub32_of_le (by omega) (by omega), Nat.mod_add_mod, Nat.add_assoc, hf]
      · rw [total_cons]
        omega
      · rw [total_cons]
        omega

/-- One item takes the place of another one. -/
theorem setItem (h : v.Holds (pre ++ b :: post)) {c : ℕ} (hc : c < 2 ^ 8) :
    Holds { v with vector := Function.update v.vector ((v.head + pre.length) % v.maxSize) c }
      (pre ++ c :: post) := by
  have hfits := h.fits
  have hlen : (pre ++ b :: post).length = pre.length + 1 + post.length := by simp; omega
  have htail : v.tail % v.maxSize = v.tail := by
    rw [h.tail (by simp), Nat.mod_mod]
  have hone : [c] ≠ [] := by simp
  have hnew := h.replaceRight hone (.inr rfl) (by simpa [hlen] using hfits)
    (by simpa using hc)
  rw [List.append_assoc, List.singleton_append] at hnew
  simpa [writeFrom, htail] using hnew

/-- The last items are forgotten. -/
theorem cut (h : v.Holds (pre ++ post)) (seqTail : ℕ) :
    Holds { v with
      size := pre.length
      tail := (v.head + (pre.length - 1)) % v.maxSize
      seqTail := seqTail } pre := by
  have hw := h.window
  rw [List.length_append, window_add] at hw
  have hfits := h.fits
  rw [List.length_append] at hfits
  refine ⟨h.max_le, h.head_lt, rfl, ?_, (List.append_inj hw (by simp)).1, fun _ => rfl,
    fun c hc => h.byte c (List.mem_append_left _ hc)⟩
  change _ ≤ v.maxSize
  omega

end Holds

/-- The items stand for the numbers from the tail to the head. -/
structure Valid (v : AckVector) (items : List ℕ) : Prop where
  holds : v.Holds items
  seqHead_lt : v.seqHead < 2 ^ 32
  span : items ≠ [] → total items + v.seqTail = v.seqHead + 1

namespace Valid

theorem sameSeqs (h : v.Valid items) (hs : SameSeqs v v') (hv : v'.Holds its)
    (ht : total its = total items) : v'.Valid its where
  holds := hv
  seqHead_lt := hs.seqHead ▸ h.seqHead_lt
  span hne := by
    have hitems : items ≠ [] := by
      rintro rfl
      have := total_pos hne
      rw [ht, total_nil] at this
      omega
    rw [ht, hs.seqTail, hs.seqHead]
    exact h.span hitems

theorem size_eq_zero_iff (h : v.Valid items) : v.size = 0 ↔ items = [] := by
  rw [h.holds.size, List.length_eq_zero_iff]

theorem findSeqNum (h : v.Valid items) (hne : items ≠ []) (hlo : v.seqTail ≤ q)
    (hhi : q ≤ v.seqHead) :
    ∃ pre b post, items = pre ++ b :: post ∧
      v.findSeqNum q = some ((v.head + pre.length) % v.maxSize, v.seqHead - total pre,
        v.seqHead - total pre - runlen b) ∧
      q + total pre ≤ v.seqHead ∧ v.seqHead ≤ q + total pre + runlen b := by
  have hspan := h.span hne
  have hfits := h.holds.fits
  have hholds : v.Holds ([] ++ items) := h.holds
  have hhead : (v.head + ([] : List ℕ).length) % v.maxSize = v.head :=
    Nat.mod_eq_of_lt h.holds.head_lt
  obtain ⟨pre, b, post, he, hf, h₁, h₂⟩ := hholds.findFrom (q := q) (n := v.maxSize)
    hne hfits h.seqHead_lt hhi (by omega) (by omega)
  refine ⟨pre, b, post, he, ?_, h₁, h₂⟩
  have hin : ¬ (v.size = 0 ∨ v.seqHead < q ∨ q < v.seqTail) := by
    rw [h.size_eq_zero_iff]
    rintro (hnil | hlt | hlt)
    · exact hne hnil
    · omega
    · omega
  rw [hhead, List.length_nil, Nat.zero_add] at hf
  rw [AckVector.findSeqNum, if_neg hin, hf]

end Valid

/-- A map from a list of states, from the newest one on. -/
def mapOf (seqHead : ℕ) (states : List PacketState) (q : ℕ) : Option PacketState :=
  if q ≤ seqHead then states[seqHead - q]? else none

theorem mapOf_set {states : List PacketState} {seqHead : ℕ} (hlo : seqHead < q + states.length)
    (hhi : q ≤ seqHead) :
    mapOf seqHead (states.set (seqHead - q) s) =
      Function.update (mapOf seqHead states) q (some s) := by
  funext p
  unfold mapOf
  by_cases hp : p = q
  · subst hp
    rw [Function.update_self, if_pos hhi, List.getElem?_set_self (by omega)]
  · rw [Function.update_of_ne hp]
    split_ifs with hle
    · rw [List.getElem?_set_ne (by omega)]
    · rfl

/-- A newer packet behind missing ones. -/
theorem mapOf_push {states : List PacketState} {seqHead : ℕ} (hlt : seqHead < q) (p : ℕ) :
    mapOf q (s :: List.replicate (q - seqHead - 1) .notRecv ++ states) p =
      if p = q then some s
      else if seqHead < p ∧ p < q then some .notRecv else mapOf seqHead states p := by
  unfold mapOf
  rcases lt_trichotomy p q with hp | rfl | hp
  · rw [if_pos hp.le, if_neg hp.ne, List.cons_append, List.getElem?_cons,
      if_neg (show q - p ≠ 0 by omega)]
    by_cases hs : seqHead < p
    · rw [if_pos ⟨hs, hp⟩, List.getElem?_append_left (by simp; omega),
        List.getElem?_replicate, if_pos (by omega)]
    · rw [if_neg (fun hn => hs hn.1), if_pos (not_lt.mp hs),
        List.getElem?_append_right (by simp; omega), List.length_replicate]
      congr 1
      omega
  · simp
  · rw [if_neg (by omega), if_neg (by omega), if_neg (by omega), if_neg (by omega)]

theorem mapOf_take {states : List PacketState} {seqHead : ℕ} (p : ℕ) (hq : q ≤ seqHead) :
    mapOf seqHead (states.take (seqHead - q)) p =
      if p ≤ q then none else mapOf seqHead states p := by
  unfold mapOf
  by_cases hp : p ≤ q
  · rw [if_pos hp, if_pos (hp.trans hq), List.getElem?_take, if_neg (by omega)]
  · rw [if_neg hp]
    split_ifs with hle
    · rw [List.getElem?_take, if_pos (by omega)]
    · rfl

/-- The items from the head to the tail. -/
def contents (v : AckVector) : List ℕ := window v.vector v.maxSize v.head v.size

/-- The states of the packets between the tail and the head. -/
def map (v : AckVector) : ℕ → Option PacketState := mapOf v.seqHead (expand v.contents)

/-- The states of a run, one of which is set. -/
theorem expand_set {seqHead : ℕ} {x : PacketState} (hlo : q + total pre ≤ seqHead)
    (hhi : seqHead ≤ q + total pre + runlen b) :
    (expand (pre ++ b :: post)).set (seqHead - q) x =
      expand pre ++ (List.replicate (runlen b + 1) (itemState b)).set
        (seqHead - total pre - q) x ++ expand post := by
  rw [expand_append, expand_cons, List.set_append_right _ _ (by rw [length_expand]; omega),
    length_expand, List.set_append_left _ _ (by simp; omega), List.append_assoc]
  congr 3
  omega

theorem getElem?_expand {seqHead : ℕ} (hlo : q + total pre ≤ seqHead)
    (hhi : seqHead ≤ q + total pre + runlen b) :
    (expand (pre ++ b :: post))[seqHead - q]? = some (itemState b) := by
  rw [expand_append, expand_cons, List.getElem?_append_right (by rw [length_expand]; omega),
    length_expand, List.getElem?_append_left (by simp; omega), List.getElem?_replicate,
    if_pos (by omega)]

namespace Valid

theorem contents_eq (h : v.Valid its) : v.contents = its := by
  rw [AckVector.contents, h.holds.size, h.holds.window]

theorem map_eq (h : v.Valid its) : v.map = mapOf v.seqHead (expand its) := by
  rw [AckVector.map, h.contents_eq]

/-- The map is total between the tail and the head. -/
theorem isSome_map (h : v.Valid items) :
    (v.map q).isSome = true ↔ items ≠ [] ∧ v.seqTail ≤ q ∧ q ≤ v.seqHead := by
  rw [h.map_eq, mapOf]
  rcases eq_or_ne items [] with rfl | hne
  · split_ifs <;> simp
  · have hspan := h.span hne
    split_ifs with hle
    · rw [isSome_getElem?]
      simp only [length_expand, hne, ne_eq, not_false_eq_true, true_and]
      omega
    · simp [hle]

theorem map_found (h : v.Valid (pre ++ b :: post)) (hlo : q + total pre ≤ v.seqHead)
    (hhi : v.seqHead ≤ q + total pre + runlen b) : v.map q = some (itemState b) := by
  rw [h.map_eq, mapOf, if_pos (by omega), getElem?_expand hlo hhi]

/-- The state that is found is the one of the map. -/
theorem getState (h : v.Valid items) (q : ℕ) : v.getState q = v.map q := by
  rw [AckVector.getState]
  split_ifs with hout
  · rw [h.size_eq_zero_iff] at hout
    have hnone : ¬ (v.map q).isSome = true := by
      rw [h.isSome_map]
      rintro ⟨hne, hlo, hhi⟩
      rcases hout with hnil | hlt | hlt
      · exact hne hnil
      · omega
      · omega
    exact (Option.not_isSome_iff_eq_none.mp hnone).symm
  · rw [h.size_eq_zero_iff] at hout
    push Not at hout
    obtain ⟨hne, hhi, hlo⟩ := hout
    obtain ⟨pre, b, post, rfl, hf, h₁, h₂⟩ := h.findSeqNum hne hlo hhi
    rw [hf, Option.map_some, h.holds.cell, h.map_found h₁ h₂]

end Valid

/-- A call either succeeds, or there is no space left and it leaves the items as they are. -/
def Results (v : AckVector) (items : List ℕ) (p : AckVector × Bool) (done : AckVector → Prop)
    (full : Prop) : Prop :=
  (p.2 = true ∧ done p.1) ∨ (p.2 = false ∧ p.1.Valid items ∧ SameSeqs v p.1 ∧ full)

/-- A function that calls itself again, when the size has been doubled. -/
theorem Valid.retry {again : AckVector → AckVector × Bool} {done : AckVector → Prop} {full : Prop}
    (h : v.Valid items) (hn : maxAckvSize ≤ v.maxSize * 2 ^ (n + 1))
    (hfull : v.maxSize = maxAckvSize → full)
    (hagain : ∀ v', v'.Valid items → SameSeqs v v' → maxAckvSize ≤ v'.maxSize * 2 ^ n →
      Results v' items (again v') done full) :
    Results v items (v.retry g again) done full := by
  rw [AckVector.retry]
  by_cases hmax : v.maxSize = maxAckvSize
  · rw [AckVector.doubleMaxSize, if_pos hmax]
    exact .inr ⟨rfl, h, ⟨rfl, rfl, rfl⟩, hfull hmax⟩
  · obtain ⟨v', he, hv, hs, hsize⟩ := h.holds.doubleMaxSize (g := g) hmax
    rw [he]
    have hn' : maxAckvSize ≤ v'.maxSize * 2 ^ n := by
      rw [hsize]
      rcases min_choice (v.maxSize * 2) maxAckvSize with hm | hm
      · rw [hm, Nat.mul_assoc, ← Nat.pow_succ']
        exact hn
      · rw [hm]
        exact Nat.le_mul_of_pos_right _ (Nat.two_pow_pos n)
    rcases hagain v' (h.sameSeqs hs hv rfl) hs hn' with hd | ⟨hf, hv', hs', hfl⟩
    · exact .inl hd
    · exact .inr ⟨hf, hv', ⟨hs'.seqHead.trans hs.seqHead, hs'.seqTail.trans hs.seqTail,
        hs'.ackvCons.trans hs.ackvCons⟩, hfl⟩

end AckVector

end Ns2XPass
