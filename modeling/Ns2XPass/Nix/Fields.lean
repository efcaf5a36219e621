import Mathlib.Tactic.Linarith
import Ns2XPass.Library.BitFields
import Ns2XPass.Nix.NixVec

/-! # The fields of a nix vector

`Add` puts each value behind those that are there, across two cells where it has
to. The cells hold every value, but the mask of `Extract` has a single bit: a
value comes back whole only out of two cells.
-/

namespace Ns2XPass

namespace NixVec

variable {c c' : ℕ → ℕ} {cells : List ℕ} {v : NixVec} {ps : List (ℕ × ℕ)} {p : ℕ × ℕ}
  {i j b f n o u x : ℕ}

/-- A value in the cells, behind `o` bits. -/
def Stored (c : ℕ → ℕ) (o : ℕ) (p : ℕ × ℕ) : Prop :=
  if o % 32 + p.2 ≤ 32 then c (o / 32) / 2 ^ (32 - o % 32 - p.2) % 2 ^ p.2 = p.1
  else
    c (o / 32) % 2 ^ (32 - o % 32) = p.1 / 2 ^ (o % 32 + p.2 - 32) ∧
      c (o / 32 + 1) / 2 ^ (64 - o % 32 - p.2) = p.1

def StoredFrom (c : ℕ → ℕ) : ℕ → List (ℕ × ℕ) → Prop
  | _, [] => True
  | o, p :: ps => Stored c o p ∧ StoredFrom c (o + p.2) ps

/-- The number of bits of all values. -/
def bits (ps : List (ℕ × ℕ)) : ℕ := (ps.map Prod.snd).sum

theorem bits_cons : bits (p :: ps) = p.2 + bits ps := rfl

theorem bits_append_singleton : bits (ps ++ [p]) = bits ps + p.2 := by
  simp [bits]

/-- The cells change only behind `u` bits, where they were free. -/
structure Extends (c c' : ℕ → ℕ) (u : ℕ) : Prop where
  same : ∀ i < u / 32, c' i = c i
  free : c (u / 32) % 2 ^ (32 - u % 32) = 0
  added : ∃ b < 2 ^ (32 - u % 32), c' (u / 32) = c (u / 32) + b

theorem Extends.stored (h : Extends c c' u) (hs : Stored c o p) (hu : o + p.2 ≤ u) :
    Stored c' o p := by
  obtain ⟨b, hb, hadd⟩ := h.added
  have hdiv : ∀ i s, i ≤ u / 32 → (i = u / 32 → 32 - u % 32 ≤ s) → c' i / 2 ^ s = c i / 2 ^ s := by
    intro i s hi hs
    rcases hi.lt_or_eq with hlt | rfl
    · rw [h.same i hlt]
    · rw [hadd, add_div_of_free h.free hb (hs rfl)]
  unfold Stored at hs ⊢
  split_ifs at hs ⊢ with hfit
  · rw [hdiv _ _ (by omega) (by omega)]
    exact hs
  · rw [h.same _ (by omega), hdiv _ _ (by omega) (by omega)]
    exact hs

theorem Extends.storedFrom (h : Extends c c' u) (hs : StoredFrom c o ps)
    (hu : o + bits ps ≤ u) : StoredFrom c' o ps := by
  induction ps generalizing o with
  | nil => trivial
  | cons p ps ih =>
    have hbits : bits (p :: ps) = p.2 + bits ps := rfl
    exact ⟨h.stored hs.1 (by omega), ih hs.2 (by omega)⟩

theorem storedFrom_append (hs : StoredFrom c o ps) (hp : Stored c (o + bits ps) p) :
    StoredFrom c o (ps ++ [p]) := by
  induction ps generalizing o with
  | nil => exact ⟨hp, trivial⟩
  | cons q ps ih =>
    have hbits : bits (q :: ps) = q.2 + bits ps := rfl
    exact ⟨hs.1, ih hs.2 (by rw [add_assoc, ← hbits]; exact hp)⟩

/-- What `Add` does to the cells: the value goes into one cell, or into two. -/
def Written (c c' : ℕ → ℕ) (u : ℕ) (p : ℕ × ℕ) : Prop :=
  if u % 32 + p.2 ≤ 32 then
    ∀ i, c' i = if i = u / 32 then c i + p.1 * 2 ^ (32 - u % 32 - p.2) else c i
  else
    ∀ i, c' i =
      if i = u / 32 then c i + p.1 / 2 ^ (u % 32 + p.2 - 32)
      else if i = u / 32 + 1 then p.1 * 2 ^ (64 - u % 32 - p.2)
      else c i

theorem Written.extends (h : Written c c' u p) (hfree : c (u / 32) % 2 ^ (32 - u % 32) = 0)
    (hx : p.1 < 2 ^ p.2) : Extends c c' u := by
  unfold Written at h
  split_ifs at h with hfit
  · refine ⟨fun i hi => by rw [h, if_neg (by omega)], hfree, _, ?_, by rw [h, if_pos rfl]⟩
    have hsplit : 2 ^ (32 - u % 32) = 2 ^ p.2 * 2 ^ (32 - u % 32 - p.2) := by
      rw [← pow_add]
      congr 1
      omega
    rw [hsplit]
    exact Nat.mul_lt_mul_of_pos_right hx (Nat.two_pow_pos _)
  · refine ⟨fun i hi => by rw [h, if_neg (by omega), if_neg (by omega)], hfree, _, ?_,
      by rw [h, if_pos rfl]⟩
    rw [Nat.div_lt_iff_lt_mul (Nat.two_pow_pos _), ← pow_add]
    refine hx.trans_le (Nat.pow_le_pow_right (by decide) (by omega))

theorem Written.stored (h : Written c c' u p) (hfree : c (u / 32) % 2 ^ (32 - u % 32) = 0)
    (hx : p.1 < 2 ^ p.2) : Stored c' u p := by
  have he := h.extends hfree hx
  obtain ⟨b, hb, hadd⟩ := he.added
  unfold Written at h
  unfold Stored
  split_ifs at h ⊢ with hfit
  · rw [h, if_pos rfl]
    exact add_mul_div_mod hfree hx (by omega)
  · constructor
    · have hbx : b = p.1 / 2 ^ (u % 32 + p.2 - 32) := by
        have hc := h (u / 32)
        rw [if_pos rfl, hadd] at hc
        exact Nat.add_left_cancel hc
      rw [hadd, Nat.add_mod, hfree, zero_add, Nat.mod_mod, Nat.mod_eq_of_lt hb, hbx]
    · rw [h, if_neg (by omega), if_pos rfl, Nat.mul_div_cancel _ (Nat.two_pow_pos _)]

theorem Written.free (h : Written c c' u p) (hfree : c (u / 32) % 2 ^ (32 - u % 32) = 0)
    (hpos : 0 < p.2) (hle : p.2 ≤ 32) (hnext : c (u / 32 + 1) = 0) :
    c' ((u + p.2) / 32) % 2 ^ (32 - (u + p.2) % 32) = 0 := by
  unfold Written at h
  split_ifs at h with hfit
  · rcases hfit.lt_or_eq with hlt | heq
    · have hi : (u + p.2) / 32 = u / 32 := by omega
      have hf : 32 - (u + p.2) % 32 = 32 - u % 32 - p.2 := by omega
      have hdvd : 2 ^ (32 - u % 32 - p.2) ∣ 2 ^ (32 - u % 32) :=
        Nat.pow_dvd_pow 2 (Nat.sub_le _ _)
      rw [h, if_pos hi, hf, hi, Nat.add_mul_mod_self_right]
      exact Nat.mod_eq_zero_of_dvd (hdvd.trans (Nat.dvd_of_mod_eq_zero hfree))
    · have hi : (u + p.2) / 32 = u / 32 + 1 := by omega
      rw [hi, h, if_neg (by omega), hnext, Nat.zero_mod]
  · have hi : (u + p.2) / 32 = u / 32 + 1 := by omega
    have hf : 32 - (u + p.2) % 32 = 64 - u % 32 - p.2 := by omega
    rw [hi, h, if_neg (by omega), if_pos rfl, hf, Nat.mul_mod_left]

/-! ### Add -/

theorem getD_orAt : (orAt cells i b).getD j 0 =
    if j = i ∧ i < cells.length then cells.getD j 0 ||| b else cells.getD j 0 := by
  unfold orAt
  rw [List.getD_eq_getElem?_getD, List.getD_eq_getElem?_getD, List.getElem?_modify]
  rcases eq_or_ne i j with rfl | hne
  · rcases lt_or_ge i cells.length with hlt | hge
    · simp [hlt]
    · simp [hge]
  · simp [hne, hne.symm]

theorem length_orAt : (orAt cells i b).length = cells.length := List.length_modify ..

theorem shiftLeft64_eq {k : ℕ} (hx : x < 2 ^ n) (hk : n + k ≤ 64) :
    shiftLeft64 x k = x * 2 ^ k := by
  have hlt : x * 2 ^ k < 2 ^ 64 := by
    have hle : 2 ^ n * 2 ^ k ≤ 2 ^ 64 := by
      rw [← pow_add]
      exact Nat.pow_le_pow_right (by decide) hk
    exact (Nat.mul_lt_mul_of_pos_right hx (Nat.two_pow_pos _)).trans_le hle
  rw [shiftLeft64, Nat.shiftLeft_eq, wrap64, Nat.mod_eq_of_lt hlt]

/-- The values that were added are in the cells, and the bits behind them are free. -/
structure Packs (v : NixVec) (ps : List (ℕ × ℕ)) : Prop where
  used : v.used = bits ps
  alth : v.alth = bits ps
  length : v.lth = 32 * v.cells.length
  free : v.cell (v.used / 32) % 2 ^ (32 - v.used % 32) = 0
  stored : StoredFrom v.cell 0 ps

theorem packs_nil : Packs {} [] := ⟨rfl, rfl, rfl, rfl, trivial⟩

/-- The cells that are allocated are those that are used, but for the first. -/
theorem lth_eq (v : NixVec) : v.lth = 32 * max 1 ((v.alth + 31) / 32) := by
  unfold lth nixBpw
  split_ifs <;> omega

theorem cell_eq_zero (hi : v.cells.length ≤ i) : v.cell i = 0 := by
  rw [cell, List.getD_eq_getElem?_getD, List.getElem?_eq_none hi]
  rfl

theorem grown_eq (h : v.lth = 32 * v.cells.length) : v.grown = v.cells ++ [0] := by
  have hlen : v.lth / nixBpw = v.cells.length := by
    unfold nixBpw
    omega
  rw [grown, hlen, List.take_length]

theorem getD_append_zero : (cells ++ [0]).getD i 0 = cells.getD i 0 := by
  rw [List.getD_eq_getElem?_getD, List.getD_eq_getElem?_getD, List.getElem?_append]
  split_ifs with h
  · rfl
  · rw [List.getElem?_eq_none (not_lt.mp h), List.getElem?_singleton]
    split_ifs <;> rfl

theorem written_one (hi : u / 32 < cells.length) (hfit : u % 32 + p.2 ≤ 32)
    (hfree : cells.getD (u / 32) 0 % 2 ^ (32 - u % 32) = 0) (hx : p.1 < 2 ^ p.2)
    (hb : b = p.1 * 2 ^ (32 - u % 32 - p.2)) :
    Written (cells.getD · 0) ((orAt cells (u / 32) b).getD · 0) u p := by
  have hlt : b < 2 ^ (32 - u % 32) := by
    have hsplit : 2 ^ (32 - u % 32) = 2 ^ p.2 * 2 ^ (32 - u % 32 - p.2) := by
      rw [← pow_add]
      congr 1
      omega
    rw [hb, hsplit]
    exact Nat.mul_lt_mul_of_pos_right hx (Nat.two_pow_pos _)
  unfold Written
  rw [if_pos hfit]
  intro j
  dsimp only
  rw [getD_orAt]
  by_cases hj : j = u / 32
  · subst hj
    rw [if_pos ⟨rfl, hi⟩, if_pos rfl, or_eq_add_of_free hfree hlt, hb]
  · rw [if_neg fun h => hj h.1, if_neg hj]

theorem written_two {b' : ℕ} (hi : u / 32 + 1 < cells.length) (hspan : 32 < u % 32 + p.2)
    (hfree : cells.getD (u / 32) 0 % 2 ^ (32 - u % 32) = 0)
    (hnext : cells.getD (u / 32 + 1) 0 = 0) (hx : p.1 < 2 ^ p.2)
    (hb : b = p.1 / 2 ^ (u % 32 + p.2 - 32)) (hb' : b' = p.1 * 2 ^ (64 - u % 32 - p.2)) :
    Written (cells.getD · 0) ((orAt (orAt cells (u / 32) b) (u / 32 + 1) b').getD · 0) u p := by
  have hlt : b < 2 ^ (32 - u % 32) := by
    rw [hb, Nat.div_lt_iff_lt_mul (Nat.two_pow_pos _), ← pow_add]
    exact hx.trans_le (Nat.pow_le_pow_right (by decide) (by omega))
  unfold Written
  rw [if_neg (by omega)]
  intro j
  dsimp only
  rw [getD_orAt, length_orAt, getD_orAt]
  by_cases hj : j = u / 32
  · subst hj
    rw [if_neg (by omega), if_pos ⟨rfl, by omega⟩, if_pos rfl, or_eq_add_of_free hfree hlt, hb]
  · rw [if_neg hj]
    by_cases hj' : j = u / 32 + 1
    · subst hj'
      rw [if_pos ⟨rfl, hi⟩, if_neg (by omega), if_pos rfl, hnext, Nat.zero_or, hb']
    · rw [if_neg fun h => hj' h.1, if_neg fun h => hj h.1, if_neg hj']

/-- The cells behind an `Add`. -/
theorem cells_add (h : Packs v ps) (hpos : 0 < p.2) (hle : p.2 ≤ 32) (hx : p.1 < 2 ^ p.2)
    (hfits : v.used + p.2 < 2 ^ 64) :
    Written v.cell (v.add p).cell v.used p ∧
      (v.add p).cells.length = max 1 ((v.used + p.2 + 31) / 32) := by
  have hlth := lth_eq v
  have hlen := h.length
  have halth := h.alth.trans h.used.symm
  rw [halth] at hlth
  have hwrap : wrap64 (v.used + p.2) = v.used + p.2 := Nat.mod_eq_of_lt hfits
  have hfree := h.free
  have hgrown : (v.grown.getD · 0) = v.cell := by
    funext j
    rw [grown_eq hlen, getD_append_zero, cell]
  have hgrownlen : v.grown.length = v.cells.length + 1 := by
    rw [grown_eq hlen, List.length_append, List.length_singleton]
  have hfree' : v.grown.getD (v.used / 32) 0 % 2 ^ (32 - v.used % 32) = 0 := by
    rw [← hgrown] at hfree
    exact hfree
  unfold add
  rw [if_neg hpos.ne', hwrap]
  dsimp only
  by_cases hgrow : v.lth < v.used + p.2
  · rw [if_pos hgrow]
    by_cases hfull : v.used = v.lth
    · -- a new cell takes the whole value
      rw [if_pos hfull]
      refine ⟨?_, ?_⟩
      · have hshift : shiftOf v.used (v.lth + nixBpw) p.2 = 32 - v.used % 32 - p.2 := by
          unfold shiftOf nixBpw
          omega
        rw [← hgrown]
        refine written_one (by omega) (by omega) hfree' hx ?_
        rw [hshift]
        exact shiftLeft64_eq hx (by omega)
      · refine length_orAt.trans ?_
        omega
    · -- the value goes into two cells
      rw [if_neg hfull]
      have hleft : p.2 - (v.lth - v.used) = v.used % 32 + p.2 - 32 := by omega
      refine ⟨?_, ?_⟩
      · rw [← hgrown]
        refine written_two (by omega) (by omega) hfree' ?_ hx ?_ ?_
        · have hnext : v.grown.getD (v.used / 32 + 1) 0 = v.cell (v.used / 32 + 1) := by
            rw [← hgrown]
          rw [hnext]
          exact cell_eq_zero (by omega)
        · rw [Nat.shiftRight_eq_div_pow, hleft]
        · have hshift : nixBpw - (p.2 - (v.lth - v.used)) = 64 - v.used % 32 - p.2 := by
            unfold nixBpw
            omega
          rw [hshift]
          exact shiftLeft64_eq hx (by omega)
      · refine (length_orAt.trans length_orAt).trans ?_
        omega
  · rw [if_neg hgrow]
    have hshift : shiftOf v.used v.lth p.2 = 32 - v.used % 32 - p.2 := by
      unfold shiftOf
      unfold nixBpw
      omega
    have hone : Written (v.cells.getD · 0) ((orAt v.cells (v.used / 32)
        (p.1 * 2 ^ (32 - v.used % 32 - p.2))).getD · 0) v.used p :=
      written_one (by omega) (by omega) hfree hx rfl
    rw [← shiftLeft64_eq hx (by omega), ← hshift] at hone
    have hlen' : v.cells.length = max 1 ((v.used + p.2 + 31) / 32) := by omega
    cases hp : v.pNV with
    | word w =>
      have hcells : v.cells = [w] := by rw [cells, hp]
      have hzero : v.used / 32 = 0 := by
        rw [hcells, List.length_singleton] at hlen
        omega
      rw [hcells, hzero] at hone
      rw [hcells] at hlen'
      refine ⟨?_, hlen'⟩
      have hcell : v.cell = ([w].getD · 0) := by
        funext j
        rw [cell, hcells]
      rw [hcell]
      exact hone
    | array cells =>
      have hcells : v.cells = cells := by rw [NixVec.cells, hp]
      have hcell : v.cell = (cells.getD · 0) := by
        funext j
        rw [cell, hcells]
      rw [hcells] at hone hlen'
      rw [hcell]
      exact ⟨hone, length_orAt.trans hlen'⟩

theorem Packs.add (h : Packs v ps) (hpos : 0 < p.2) (hle : p.2 ≤ 32) (hx : p.1 < 2 ^ p.2)
    (hfits : bits ps + p.2 < 2 ^ 64) : Packs (v.add p) (ps ++ [p]) := by
  have hu := h.used
  obtain ⟨hw, hlen⟩ := cells_add h hpos hle hx (by omega)
  have hused : (v.add p).used = v.used + p.2 := by
    unfold NixVec.add
    rw [if_neg hpos.ne']
    exact Nat.mod_eq_of_lt (by omega)
  have halth : (v.add p).alth = v.used + p.2 := by
    unfold NixVec.add
    rw [if_neg hpos.ne', h.alth, ← h.used]
    change max _ (wrap64 _) = _
    rw [wrap64, Nat.mod_eq_of_lt (by omega)]
    omega
  have hext := hw.extends h.free hx
  have hnext : v.cell (v.used / 32 + 1) = 0 := by
    have hlth := lth_eq v
    have hl := h.length
    rw [h.alth, ← hu] at hlth
    exact cell_eq_zero (by omega)
  constructor
  · rw [hused, bits_append_singleton, hu]
  · rw [halth, bits_append_singleton, hu]
  · rw [lth_eq, halth, hlen]
  · rw [hused]
    exact hw.free h.free hpos hle hnext
  · refine storedFrom_append (hext.storedFrom h.stored (by omega)) ?_
    have hstored := hw.stored h.free hx
    rw [zero_add, ← hu]
    exact hstored

/-- The pairs that `Add` is given: lengths of at most a cell, and values of that length. -/
def Fits (ps : List (ℕ × ℕ)) : Prop := ∀ p ∈ ps, 0 < p.2 ∧ p.2 ≤ 32 ∧ p.1 < 2 ^ p.2

theorem packs_foldl {qs : List (ℕ × ℕ)} (h : Packs v ps) (hq : Fits qs)
    (hfits : bits (ps ++ qs) < 2 ^ 64) : Packs (qs.foldl NixVec.add v) (ps ++ qs) := by
  induction qs generalizing v ps with
  | nil => rwa [List.append_nil]
  | cons q qs ih =>
    obtain ⟨hpos, hle, hx⟩ := hq q List.mem_cons_self
    have hsplit : ps ++ q :: qs = ps ++ [q] ++ qs := by simp
    have hbits : bits (ps ++ [q]) ≤ bits (ps ++ [q] ++ qs) := by
      simp [bits]
    rw [hsplit] at hfits ⊢
    rw [bits_append_singleton] at hbits
    exact ih (h.add hpos hle hx (by omega)) (fun p hp => hq p (List.mem_cons_of_mem _ hp)) hfits

theorem packs_ofPairs (hp : Fits ps) (hfits : bits ps < 2 ^ 64) : Packs (ofPairs ps) ps :=
  packs_foldl packs_nil hp hfits

end NixVec

end Ns2XPass
