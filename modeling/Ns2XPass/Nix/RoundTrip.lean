import Ns2XPass.Nix.Fields

/-! # Round trips through a nix vector

A value comes back from the vector if it is at most one or lies across two cells,
and a route comes back from its vector if that holds at each of its hops.
-/

namespace Ns2XPass

namespace NixVec

variable {v : NixVec} {p : ℕ × ℕ} {ps qs : List (ℕ × ℕ)} {o m n : ℕ}

/-- The field lies across two cells. -/
def Spans (o n : ℕ) : Prop := 32 < o % 32 + n

instance : Decidable (Spans o n) := inferInstanceAs (Decidable (_ < _))

/-- What the mask of one bit leaves of a field. -/
def readBack (o : ℕ) (p : ℕ × ℕ) : ℕ := if Spans o p.2 then p.1 else p.1 % 2

theorem shiftRight_mask {k b : ℕ} (hk : k + b ≤ 31) : 0x80000000 >>> k >>> b = 2 ^ (31 - k - b) := by
  have hpow : 0x80000000 = 2 ^ (k + b) * 2 ^ (31 - k - b) := by
    rw [← pow_add, show k + b + (31 - k - b) = 31 by omega]
    rfl
  rw [← Nat.shiftRight_add, Nat.shiftRight_eq_div_pow, hpow,
    Nat.mul_div_cancel_left _ (Nat.two_pow_pos _)]

/-- `Extract` at a field. -/
theorem extract_stored (hs : Stored v.cell v.used p) (hpos : 0 < p.2) (hle : p.2 ≤ 32)
    (hin : v.used + p.2 ≤ v.alth) (hfits : v.alth < 2 ^ 64) :
    v.extract p.2 = (readBack v.used p, { v with used := v.used + p.2 }) := by
  have hwrap : wrap64 (v.used + p.2) = v.used + p.2 := Nat.mod_eq_of_lt (by omega)
  have hbit : v.used - v.used / nixBpw * nixBpw = v.used % 32 := by
    unfold nixBpw
    omega
  have hword : v.used / nixBpw = v.used / 32 := rfl
  have hwrap' : wrap64 (v.used % 32 + p.2) = v.used % 32 + p.2 := Nat.mod_eq_of_lt (by omega)
  unfold extract readBack
  dsimp only
  rw [hwrap, if_neg (not_lt.mpr hin), hbit, hword, hwrap']
  unfold Stored at hs
  by_cases hspan : Spans v.used p.2
  · rw [if_pos hspan, if_neg (show ¬ v.used % 32 + p.2 ≤ nixBpw from not_le.mpr hspan)]
    unfold Spans at hspan
    rw [if_neg (not_le.mpr hspan)] at hs
    obtain ⟨hfirst, hsecond⟩ := hs
    have hone : 2 ^ (31 - (nixBpw - v.used % 32 - 1) - v.used % 32) = 1 := by
      rw [show 31 - (nixBpw - v.used % 32 - 1) - v.used % 32 = 0 by unfold nixBpw; omega, pow_zero]
    have ht : p.2 - (nixBpw - v.used % 32) = v.used % 32 + p.2 - 32 := by
      unfold nixBpw
      omega
    have ht' : nixBpw - (v.used % 32 + p.2 - 32) = 64 - v.used % 32 - p.2 := by
      unfold nixBpw
      omega
    have hlow : v.cell (v.used / 32) &&& 1 = p.1 / 2 ^ (v.used % 32 + p.2 - 32) % 2 := by
      rw [Nat.and_one_is_mod, ← hfirst, Nat.mod_mod_of_dvd]
      exact dvd_pow_self 2 (by omega)
    have hshift : shiftLeft64 (p.1 / 2 ^ (v.used % 32 + p.2 - 32) % 2) (v.used % 32 + p.2 - 32) =
        p.1 / 2 ^ (v.used % 32 + p.2 - 32) % 2 * 2 ^ (v.used % 32 + p.2 - 32) :=
      shiftLeft64_eq (n := 1) (Nat.mod_lt _ (by decide)) (by omega)
    rw [shiftRight_mask (by unfold nixBpw; omega), hone, hlow, ht, ht', hshift,
      Nat.shiftRight_eq_div_pow, hsecond, bit_mul_two_pow_or]
  · rw [if_neg hspan, if_pos (show v.used % 32 + p.2 ≤ nixBpw from not_lt.mp hspan)]
    unfold Spans at hspan
    rw [if_pos (not_lt.mp hspan)] at hs
    have hpow : 31 - (p.2 - 1) - v.used % 32 = 32 - v.used % 32 - p.2 := by omega
    have hmod : p.1 % 2 = v.cell (v.used / 32) / 2 ^ (32 - v.used % 32 - p.2) % 2 := by
      rw [← hs, Nat.mod_mod_of_dvd]
      exact dvd_pow_self 2 (by omega)
    rw [shiftRight_mask (by omega), hpow, hmod]
    exact congrArg₂ Prod.mk and_two_pow_shiftRight rfl

def readAll : ℕ → List (ℕ × ℕ) → List ℕ
  | _, [] => []
  | o, p :: ps => readBack o p :: readAll (o + p.2) ps

theorem extractAll_stored (hs : StoredFrom v.cell v.used ps) (hp : Fits ps)
    (hin : v.used + bits ps ≤ v.alth) (hfits : v.alth < 2 ^ 64) :
    v.extractAll (ps.map Prod.snd) =
      (readAll v.used ps, { v with used := v.used + bits ps }) := by
  induction ps generalizing v with
  | nil => rfl
  | cons p ps ih =>
    have hbits : bits (p :: ps) = p.2 + bits ps := rfl
    obtain ⟨hpos, hle, -⟩ := hp p List.mem_cons_self
    have hrest : Fits ps := fun q hq => hp q (List.mem_cons_of_mem _ hq)
    rw [List.map_cons, extractAll, extract_stored hs.1 hpos hle (by omega) hfits]
    dsimp only
    rw [@ih { v with used := v.used + p.2 } hs.2 hrest (by dsimp only; omega) hfits]
    simp only [readAll, hbits, add_assoc]

/-- At each field the value is at most one, or lies across two cells. -/
def PlainFrom : ℕ → List (ℕ × ℕ) → Prop
  | _, [] => True
  | o, p :: ps => (p.1 ≤ 1 ∨ Spans o p.2) ∧ PlainFrom (o + p.2) ps

instance decidablePlainFrom : (o : ℕ) → (ps : List (ℕ × ℕ)) → Decidable (PlainFrom o ps)
  | _, [] => .isTrue trivial
  | o, p :: ps =>
    have := decidablePlainFrom (o + p.2) ps
    inferInstanceAs (Decidable ((p.1 ≤ 1 ∨ Spans o p.2) ∧ PlainFrom (o + p.2) ps))

theorem readBack_eq_iff : readBack o p = p.1 ↔ p.1 ≤ 1 ∨ Spans o p.2 := by
  unfold readBack
  split_ifs with h
  · simp [h]
  · simp only [h, or_false]
    omega

theorem readAll_eq_iff : readAll o ps = ps.map Prod.fst ↔ PlainFrom o ps := by
  induction ps generalizing o with
  | nil => simp [readAll, PlainFrom]
  | cons p ps ih => simp [readAll, PlainFrom, readBack_eq_iff, ih]

/-- The values come back, and then `Extract` finds that there is no more. -/
def RoundTrips (ps : List (ℕ × ℕ)) (n : ℕ) : Prop :=
  let r := (ofPairs ps).reset.extractAll (ps.map Prod.snd)
  r.1 = ps.map Prod.fst ∧ (r.2.extract n).1 = nixNone ∧ (r.2.extract n).2.used = r.2.used

/-- Behind the last bit `Extract` stops, if the end of its field can be counted. -/
theorem extract_behind (hu : v.used = v.alth) (hn : 0 < n) (hn' : n < 2 ^ 64)
    (hfits : v.alth < 2 ^ 64) :
    (v.extract n).1 = nixNone ∧ (v.extract n).2.used = v.used ↔ v.used + n < 2 ^ 64 := by
  unfold extract wrap64
  constructor
  · rintro ⟨-, hsame⟩
    by_contra hlt
    have hmod : (v.used + n) % 2 ^ 64 = v.used + n - 2 ^ 64 := by omega
    dsimp only at hsame
    rw [if_neg (by omega)] at hsame
    change (v.used + n) % 2 ^ 64 = v.used at hsame
    omega
  · intro hlt
    dsimp only
    rw [Nat.mod_eq_of_lt hlt, if_pos (by omega)]
    exact ⟨rfl, rfl⟩

theorem roundTrips_iff (hp : Fits ps) (hfits : bits ps < 2 ^ 64) (hn : 0 < n) (hn' : n < 2 ^ 64) :
    RoundTrips ps n ↔ PlainFrom 0 ps ∧ bits ps + n < 2 ^ 64 := by
  have h := packs_ofPairs hp hfits
  have hall : (ofPairs ps).reset.extractAll (ps.map Prod.snd) =
      (readAll 0 ps, { (ofPairs ps) with used := bits ps }) := by
    have hread := @extractAll_stored (ofPairs ps).reset ps h.stored hp
      (by change 0 + bits ps ≤ (ofPairs ps).alth; rw [h.alth]; omega)
      (by change (ofPairs ps).alth < _; rw [h.alth]; exact hfits)
    rw [hread]
    simp only [reset, zero_add]
  have hbehind := @extract_behind { (ofPairs ps) with used := bits ps } n h.alth.symm hn hn'
    (by change (ofPairs ps).alth < _; rw [h.alth]; exact hfits)
  unfold RoundTrips
  rw [hall]
  exact and_congr readAll_eq_iff hbehind

end NixVec

/-! ### Routes -/

/-- The number of bits of a value, which is one for zero. -/
def bitLength (k : ℕ) : ℕ := max 1 k.size

theorem getBitlFrom_eq {l h : ℕ} (hl : l < 2 ^ (h + 1)) : getBitlFrom l h = bitLength l := by
  induction h with
  | zero =>
    unfold getBitlFrom bitLength
    have hsize : l.size ≤ 1 := Nat.size_le.mpr hl
    omega
  | succ h ih =>
    unfold getBitlFrom
    rw [Nat.one_shiftLeft, Nat.and_comm, Nat.and_two_pow]
    cases hbit : l.testBit (h + 1) with
    | true =>
      have hge : 2 ^ (h + 1) ≤ l := Nat.ge_two_pow_of_testBit hbit
      have hlt : h + 1 < l.size := Nat.lt_size.mpr hge
      have hle : l.size ≤ h + 2 := Nat.size_le.mpr hl
      rw [if_pos (by simp)]
      unfold bitLength
      omega
    | false =>
      rw [if_neg (by simp)]
      refine ih (Nat.lt_pow_two_of_testBit l ?_)
      intro i hi
      rcases hi.lt_or_eq with hlt | rfl
      · exact Nat.testBit_eq_false_of_lt (hl.trans_le (Nat.pow_le_pow_right (by decide) hlt))
      · exact hbit

theorem getBitlFrom_le (l h : ℕ) : getBitlFrom l h ≤ h + 1 := by
  induction h with
  | zero => exact le_rfl
  | succ h ih =>
    unfold getBitlFrom
    split_ifs <;> omega

theorem lt_of_and_mask {k a b : ℕ} (hk : k < 2 ^ (a + b)) (h : k &&& (2 ^ b - 1) <<< a = 0) :
    k < 2 ^ a := by
  have hdiv : k >>> a &&& (2 ^ b - 1) = 0 := by
    have hshift := congrArg (· >>> a) h
    simpa only [Nat.shiftRight_and_distrib, Nat.shiftLeft_shiftRight, Nat.zero_shiftRight]
      using hshift
  rw [Nat.and_two_pow_sub_one_eq_mod, Nat.shiftRight_eq_div_pow,
    Nat.mod_eq_of_lt (Nat.div_lt_of_lt_mul (by rwa [← pow_add]))] at hdiv
  exact (Nat.div_eq_zero_iff_lt (Nat.two_pow_pos a)).mp hdiv

theorem getBitl_le (k : ℕ) : getBitl k ≤ 32 := by
  unfold getBitl
  dsimp only
  refine (getBitlFrom_le k _).trans ?_
  split_ifs <;> omega

/-- `GetBitl` counts the bits of the values of a cell. -/
theorem getBitl_eq_iff (k : ℕ) : getBitl k = bitLength k ↔ k < 2 ^ 32 := by
  constructor
  · intro h
    by_contra hlt
    have hsize : 32 < k.size := Nat.lt_size.mpr (not_lt.mp hlt)
    have hle := getBitl_le k
    rw [h, bitLength] at hle
    omega
  · intro hk
    unfold getBitl
    dsimp only
    split_ifs with h16 h8
    · exact getBitlFrom_eq (lt_of_and_mask (b := 24) hk h8)
    · exact getBitlFrom_eq (lt_of_and_mask (b := 16) hk h16)
    · exact getBitlFrom_eq hk

section Nodes

variable {N : Type*} [DecidableEq N] {adj : N → List N} {s t : N} {hops : List N}

open NixVec

/-- Every node of the route is a neighbour of the one before it. -/
def IsRoute (adj : N → List N) : N → List N → Prop
  | _, [] => True
  | s, t :: hops => t ∈ adj s ∧ IsRoute adj t hops

/-- `GetBitl` counts the bits of the indices of each node that sends. -/
def CountsBits (adj : N → List N) : N → List N → Prop
  | _, [] => True
  | s, t :: hops =>
    getNixl (adj s) = bitLength ((adj s).length - 1) ∧ CountsBits adj t hops

/-- The index of a neighbour: the first place where it stands. -/
theorem getNix_of_mem {l : List N} (h : t ∈ l) :
    ∃ i, getNix l t = (i, getNixl l) ∧ i < l.length ∧ l[i]? = some t ∧
      ∀ j < i, l[j]? ≠ some t := by
  have hsome : (l.findIdx? (· = t)).isSome := by
    rw [List.findIdx?_isSome]
    simpa using h
  obtain ⟨i, hi⟩ := Option.isSome_iff_exists.mp hsome
  obtain ⟨hlt, hget, hfirst⟩ := List.findIdx?_eq_some_iff_getElem.mp hi
  refine ⟨i, by unfold getNix; rw [hi], hlt, ?_, ?_⟩
  · rw [List.getElem?_eq_getElem hlt]
    simpa using hget
  · intro j hj
    have hne := hfirst j hj
    rw [List.getElem?_eq_getElem (hj.trans hlt)]
    simpa using hne

theorem fits_getNix {l : List N} (h : t ∈ l) (hb : getNixl l = bitLength (l.length - 1)) :
    0 < (getNix l t).2 ∧ (getNix l t).2 ≤ 32 ∧ (getNix l t).1 < 2 ^ (getNix l t).2 := by
  obtain ⟨i, hi, hlt, -, -⟩ := getNix_of_mem h
  have hle : getNixl l ≤ 32 := getBitl_le _
  have hpos : 0 < bitLength (l.length - 1) := lt_max_of_lt_left Nat.one_pos
  have hsize : l.length - 1 < 2 ^ bitLength (l.length - 1) :=
    (Nat.lt_size_self _).trans_le (Nat.pow_le_pow_right (by decide) (le_max_right _ _))
  rw [hi]
  dsimp only
  rw [hb] at hle ⊢
  exact ⟨hpos, hle, by omega⟩

theorem fits_hopPairs (h : IsRoute adj s hops) (hb : CountsBits adj s hops) :
    Fits (hopPairs adj s hops) := by
  induction hops generalizing s with
  | nil => exact fun p hp => absurd hp List.not_mem_nil
  | cons t hops ih =>
    intro p hp
    rcases List.mem_cons.mp hp with rfl | hp
    · exact fits_getNix h.1 hb.1
    · exact ih h.2 hb.2 p hp

/-- At the first hop whose index does not come back, the route goes astray. -/
theorem decodeHops_iff {v : NixVec} (h : IsRoute adj s hops) (hb : CountsBits adj s hops)
    (hs : StoredFrom v.cell v.used (hopPairs adj s hops))
    (hin : v.used + bits (hopPairs adj s hops) ≤ v.alth) (hfits : v.alth < 2 ^ 64) :
    decodeHops adj hops.length s v = some hops ↔ PlainFrom v.used (hopPairs adj s hops) := by
  induction hops generalizing s v with
  | nil => exact iff_of_true rfl trivial
  | cons t hops ih =>
    obtain ⟨i, hi, hlt, hget, hfirst⟩ := getNix_of_mem h.1
    obtain ⟨hpos, hle, -⟩ := fits_getNix h.1 hb.1
    have hbits : bits (hopPairs adj s (t :: hops)) =
        (getNix (adj s) t).2 + bits (hopPairs adj t hops) := bits_cons (p := getNix (adj s) t)
    have hread := extract_stored hs.1 hpos hle (by omega) hfits
    have hlen : (getNix (adj s) t).2 = getNixl (adj s) := by rw [hi]
    have hstep : decodeHops adj (t :: hops).length s v =
        (getNeighbor (adj s) (readBack v.used (getNix (adj s) t))).bind fun t' =>
          (decodeHops adj hops.length t'
            { v with used := v.used + (getNix (adj s) t).2 }).map (t' :: ·) := by
      rw [List.length_cons, decodeHops, ← hlen, hread]
    have hrest := @ih t { v with used := v.used + (getNix (adj s) t).2 } h.2 hb.2 hs.2
      (by rw [hbits] at hin; rwa [← add_assoc] at hin) hfits
    rw [hstep, hopPairs, PlainFrom, ← readBack_eq_iff, ← hrest, getNeighbor]
    by_cases hplain : readBack v.used (getNix (adj s) t) = (getNix (adj s) t).1
    · rw [hplain, hi]
      dsimp only
      rw [hget]
      simp
    · have hmiss : (adj s)[readBack v.used (getNix (adj s) t)]? ≠ some t := by
        apply hfirst
        have hfst : (getNix (adj s) t).1 = i := by rw [hi]
        unfold readBack at hplain ⊢
        split_ifs at hplain ⊢ with hspan
        · exact absurd rfl hplain
        · rw [hfst] at hplain ⊢
          omega
      refine iff_of_false ?_ fun h => hplain h.1
      rw [Option.bind_eq_some_iff]
      rintro ⟨t', hn, hmap⟩
      obtain ⟨hops', -, heq⟩ := Option.map_eq_some_iff.mp hmap
      exact hmiss (hn.trans (congrArg some (List.cons.inj heq).1))

/-- The route that is decoded from the vector of a route. -/
def decoded (adj : N → List N) (s : N) (hops : List N) : Option (List N) :=
  decodeHops adj hops.length s (ofPairs (hopPairs adj s hops)).reset

theorem decoded_eq_iff (h : IsRoute adj s hops) (hb : CountsBits adj s hops)
    (hfits : bits (hopPairs adj s hops) < 2 ^ 64) :
    decoded adj s hops = some hops ↔ PlainFrom 0 (hopPairs adj s hops) := by
  have hpacks := packs_ofPairs (fits_hopPairs h hb) hfits
  have halth : (ofPairs (hopPairs adj s hops)).reset.alth = bits (hopPairs adj s hops) :=
    hpacks.alth
  exact decodeHops_iff h hb hpacks.stored (by rw [halth]; exact (Nat.zero_add _).le)
    (by rw [halth]; exact hfits)

end Nodes

/-- A vector gives back the values that are at most one or lie across two cells, then it is at its
end, and it gives back the routes whose hops have such indices. -/
theorem nixVec_roundTrip (ps : List (ℕ × ℕ)) (n k : ℕ) {N : Type} [DecidableEq N]
    (adj : N → List N) (s : N) (hops : List N) :
    (NixVec.Fits ps → NixVec.bits ps < 2 ^ 64 → 0 < n → n < 2 ^ 64 →
      (NixVec.RoundTrips ps n ↔ NixVec.PlainFrom 0 ps ∧ NixVec.bits ps + n < 2 ^ 64)) ∧
    (getBitl k = bitLength k ↔ k < 2 ^ 32) ∧
    (IsRoute adj s hops → CountsBits adj s hops → NixVec.bits (hopPairs adj s hops) < 2 ^ 64 →
      (decoded adj s hops = some hops ↔ NixVec.PlainFrom 0 (hopPairs adj s hops))) :=
  ⟨NixVec.roundTrips_iff, getBitl_eq_iff k, decoded_eq_iff⟩

/-- A field across two cells, and a route that doubles back. -/
theorem nixVec_roundTrip_short :
    NixVec.RoundTrips [(1, 31), (21, 5)] 3 ∧ getBitl 5 = 3 ∧
      decoded (fun n : ℕ => [n + 1, n - 1]) 4 [5, 4] = some [5, 4] := by
  have h := nixVec_roundTrip [(1, 31), (21, 5)] 3 5 (fun n : ℕ => [n + 1, n - 1]) 4 [5, 4]
  refine ⟨(h.1 ?_ (by decide) (by decide) (by decide)).mpr (by decide), h.2.1.mpr (by decide),
    (h.2.2 ?_ ?_ (by decide)).mpr (by decide)⟩
  · unfold NixVec.Fits
    decide
  · simp [IsRoute]
  · exact ⟨by decide, by decide, trivial⟩

/-- Of the value two in two bits only the last bit comes back, and the third neighbour of a node is
taken for the first. -/
theorem nixVec_loses_bit :
    ((NixVec.ofPairs [(2, 2)]).reset.extractAll [2]).1 = [0] ∧
      decoded (fun _ : ℕ => [1, 2, 3]) 0 [3] = some [1] := by
  decide

end Ns2XPass
