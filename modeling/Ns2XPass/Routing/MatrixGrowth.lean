import Ns2XPass.Library.Machine
import Ns2XPass.Routing.LinkMatrix
import Mathlib.Tactic.NormNum

/-! # Growing the matrix of the links

The matrix grows when a link joins a node whose number does not fit. The costs are
copied to it, the entries of the links are not, and the routes that have been
computed are still laid out for the old size.
-/

namespace Ns2XPass

inductive RouteFault
  | overflow
  | assertion

inductive RouteCall (ε : Type)
  | insert (src dst : ℕ) (cost : ℚ)
  | insertEntry (src dst : ℕ) (cost : ℚ) (entry : Option ε)
  | reset (src dst : ℕ)
  | compute (memory : ℕ → ℚ)
  | lookup (sid did : ℕ)

/-- The cells of the links as last set, the size of the matrix when the routes were last
computed with what `lookup_flat` answered then, and for each lookup of nodes that were known then
what it answered and what it should have. -/
structure RouteHistory (ε : Type) where
  links : ℕ → ℕ → AdjEntry ε
  known : ℕ
  hops : ℕ → ℕ → ℤ
  answers : List (ℤ × ℤ)

/-- The cells of the links after one of them is set. -/
def setCell {ε : Type} (links : ℕ → ℕ → AdjEntry ε) (src dst : ℕ) (e : AdjEntry ε) :
    ℕ → ℕ → AdjEntry ε :=
  fun i j => if i = src ∧ j = dst then e else links i j

namespace RouteLogic

variable {ε : Type} {r r' : RouteLogic ε} {links : ℕ → ℕ → AdjEntry ε} {i j m n src dst : ℕ}

def cell (r : RouteLogic ε) (i j : ℕ) : AdjEntry ε := r.adj (index i j r.size)

/-- The number of cells of a new matrix is an `int`. -/
def checked (r : RouteLogic ε) : Except RouteFault (RouteLogic ε) :=
  if r.size * r.size < 2 ^ 31 then .ok r else .error .overflow

def call (r : RouteLogic ε) : RouteCall ε → Except RouteFault (RouteLogic ε)
  | .insert src dst cost => (r.insert src dst cost).checked
  | .insertEntry src dst cost entry => (r.insertEntry src dst cost entry).checked
  | .reset src dst =>
    match r.reset src dst with
    | some r => .ok r
    | none => .error .assertion
  | .compute memory => .ok (r.computeRoutes memory)
  | .lookup _ _ => .ok r

end RouteLogic

open RouteLogic

def RouteHistory.record {ε : Type} (r : RouteLogic ε) (x : RouteCall ε) (r' : RouteLogic ε)
    (h : RouteHistory ε) : RouteHistory ε :=
  match x with
  | .insert src dst cost =>
    { h with links := setCell h.links src dst ⟨cost, (h.links src dst).entry⟩ }
  | .insertEntry src dst cost entry => { h with links := setCell h.links src dst ⟨cost, entry⟩ }
  | .reset src dst =>
    { h with links := setCell h.links src dst ⟨infinity, (h.links src dst).entry⟩ }
  | .compute _ => { h with known := r'.size, hops := r'.lookupFlat }
  | .lookup sid did =>
    if sid + 1 < h.known ∧ did + 1 < h.known then
      { h with answers := (r.lookupFlat sid did, h.hops sid did) :: h.answers }
    else h

def noRoutes (ε : Type) : RouteHistory ε := ⟨fun _ _ => ⟨infinity, none⟩, 0, fun _ _ => -1, []⟩

def routeCalls (ε : Type) : Machine (RouteLogic ε) (RouteCall ε) RouteFault where
  Init r := r = .empty ε
  Enabled _ _ := True
  step := RouteLogic.call

def routeRuns (ε : Type) : Machine (RouteLogic ε × RouteHistory ε) (RouteCall ε) RouteFault :=
  (routeCalls ε).withHistory (noRoutes ε) RouteHistory.record

/-- No entry is lost when a link is set: both nodes fit, or there are no entries. -/
def RouteLogic.Spares {ε : Type} (r : RouteLogic ε) (src dst : ℕ) : Prop :=
  src < r.size ∧ dst < r.size ∨ ∀ i j, i < r.size → j < r.size → (r.cell i j).entry = none

/-- The condition on a call that may set a link. -/
def RouteLogic.SparesCall {ε : Type} (r : RouteLogic ε) : RouteCall ε → Prop
  | .insert src dst _ => r.Spares src dst
  | .insertEntry src dst _ _ => r.Spares src dst
  | _ => True

/-- The condition on a lookup: the matrix has not grown since the routes were computed. -/
def SteadyLookup {ε : Type} (p : RouteLogic ε × RouteHistory ε) : RouteCall ε → Prop
  | .lookup _ _ => p.1.size = p.2.known
  | _ => True

/-- The runs in which the matrix grows only while there are no entries, and not between the
computation of the routes and a lookup. -/
def steadyRuns (ε : Type) : Machine (RouteLogic ε × RouteHistory ε) (RouteCall ε) RouteFault :=
  (routeRuns ε).restrict fun p x => p.1.SparesCall x ∧ SteadyLookup p x

namespace RouteLogic

variable {ε : Type} {r r' : RouteLogic ε} {links : ℕ → ℕ → AdjEntry ε} {i j m n src dst : ℕ}

/-! ### The size -/

theorem widen_le {fuel : ℕ} : widen n fuel m ≤ max m (2 * n) := by
  induction fuel generalizing m with
  | zero => exact le_max_left _ _
  | succ fuel ih =>
    unfold widen
    split
    · next h => exact ih.trans (by omega)
    · exact le_max_left _ _

theorem exists_widen (fuel : ℕ) (k : ℕ) : ∃ k', widen n fuel (2 ^ k) = 2 ^ k' := by
  induction fuel generalizing k with
  | zero => exact ⟨k, rfl⟩
  | succ fuel ih =>
    unfold widen
    split
    · rw [← Nat.pow_succ']
      exact ih (k + 1)
    · exact ⟨k, rfl⟩

/-- The size is a power of two, once there is a matrix. -/
def Sized (r : RouteLogic ε) : Prop := r.size = 0 ∨ ∃ k, r.size = 2 ^ k

theorem size_foldl_copyCost (ps : List (ℕ × ℕ)) (new : RouteLogic ε) :
    (ps.foldl r.copyCost new).size = new.size := by
  induction ps generalizing new with
  | nil => rfl
  | cons p ps ih => exact ih _

theorem size_check (h : ¬ n < r.size) :
    (r.check n).size = widen n (n + 1) (if r.size = 0 then 16 else r.size) := by
  unfold check
  rw [if_neg h]
  exact size_foldl_copyCost _ _

theorem Sized.check (h : r.Sized) (n : ℕ) :
    (r.check n).Sized ∧ (r.check n).size ≤ max (max r.size 16) (2 * n) := by
  by_cases hn : n < r.size
  · unfold RouteLogic.check
    rw [if_pos hn]
    exact ⟨h, by omega⟩
  · have hsize := size_check hn
    refine ⟨.inr ?_, ?_⟩
    · rw [hsize]
      split
      · exact exists_widen _ 4
      · next h0 =>
        obtain ⟨k, hk⟩ := h.resolve_left h0
        rw [hk]
        exact exists_widen _ k
    · rw [hsize]
      exact widen_le.trans (by split <;> omega)

/-- A power of two is less than 2^16 just if its square is an `int`. -/
theorem Sized.square_lt_iff (h : r.Sized) : r.size * r.size < 2 ^ 31 ↔ r.size < 2 ^ 16 := by
  rcases h with h0 | ⟨k, hk⟩
  · simp [h0]
  · rw [hk, ← Nat.pow_add, Nat.pow_lt_pow_iff_right (by norm_num),
      Nat.pow_lt_pow_iff_right (by norm_num)]
    omega

/-- The matrix with room for two nodes. -/
def grown (r : RouteLogic ε) (src dst : ℕ) : RouteLogic ε := (r.check src).check dst

theorem fits_grown (r : RouteLogic ε) (src dst : ℕ) :
    src < (r.grown src dst).size ∧ dst < (r.grown src dst).size ∧
      r.size ≤ (r.grown src dst).size := by
  obtain ⟨hs, hle, -⟩ := r.check_spec src
  obtain ⟨hd, hle', -⟩ := (r.check src).check_spec dst
  exact ⟨hs.trans_le hle', hd, hle.trans hle'⟩

/-- Setting a link of two nodes works just if their numbers are below 2^15. -/
theorem grown_lt_iff (src dst : ℕ) (h : r.Sized) (hr : r.size < 2 ^ 16) :
    (r.grown src dst).size < 2 ^ 16 ↔ src < 2 ^ 15 ∧ dst < 2 ^ 15 := by
  obtain ⟨h₁, hle₁⟩ := h.check src
  obtain ⟨h₂, hle₂⟩ := h₁.check dst
  obtain ⟨hs, hd, -⟩ := r.fits_grown src dst
  unfold grown at *
  constructor
  · intro hlt
    obtain h0 | ⟨k, hk⟩ := h₂
    · omega
    · have hk' : k ≤ 15 := by
        rw [hk, Nat.pow_lt_pow_iff_right (by norm_num)] at hlt
        omega
      have : 2 ^ k ≤ 2 ^ 15 := Nat.pow_le_pow_right (by norm_num) hk'
      omega
  · rintro ⟨hs', hd'⟩
    omega

/-! ### The cells -/

theorem entry_foldl_copyCost (ps : List (ℕ × ℕ)) (new : RouteLogic ε)
    (h : ∀ a, (new.adj a).entry = none) (a : ℕ) :
    ((ps.foldl r.copyCost new).adj a).entry = none := by
  induction ps generalizing new with
  | nil => exact h a
  | cons p ps ih =>
    apply ih
    intro b
    unfold copyCost setCost
    dsimp only
    rw [Function.update_apply]
    split
    · exact h _
    · exact h b

/-- Growing copies the costs only. -/
theorem cell_check (hn : ¬ n < r.size) (hi : i < (r.check n).size) (hj : j < (r.check n).size) :
    (r.check n).cell i j =
      if i < r.size ∧ j < r.size then ⟨(r.cell i j).cost, none⟩ else ⟨infinity, none⟩ := by
  have hcost := (r.check_spec n).2.2 i j hi hj
  have hentry : ((r.check n).cell i j).entry = none := by
    unfold cell RouteLogic.check
    rw [if_neg hn]
    exact entry_foldl_copyCost _ _ (fun _ => rfl) _
  have hcell : (r.check n).cell i j = ⟨(r.check n).cost i j, none⟩ := by
    rw [← hentry]
    rfl
  rw [hcell, hcost]
  split <;> rfl

theorem grown_eq_self (hs : src < r.size) (hd : dst < r.size) : r.grown src dst = r := by
  unfold grown check
  rw [if_pos hs, if_pos hd]

theorem cell_grown (h : ¬ (src < r.size ∧ dst < r.size)) (hi : i < (r.grown src dst).size)
    (hj : j < (r.grown src dst).size) :
    (r.grown src dst).cell i j =
      if i < r.size ∧ j < r.size then ⟨(r.cell i j).cost, none⟩ else ⟨infinity, none⟩ := by
  unfold grown at *
  by_cases hs : src < r.size
  · have hself : r.check src = r := if_pos hs
    rw [hself] at hi hj ⊢
    exact cell_check (fun hd => h ⟨hs, hd⟩) hi hj
  · by_cases hd : dst < (r.check src).size
    · have hself : (r.check src).check dst = r.check src := if_pos hd
      rw [hself] at hi hj ⊢
      exact cell_check hs hi hj
    · rw [cell_check hd hi hj]
      have hle := (r.check_spec src).2.1
      by_cases h₁ : i < (r.check src).size ∧ j < (r.check src).size
      · rw [if_pos h₁, cell_check hs h₁.1 h₁.2]
        split <;> rfl
      · rw [if_neg h₁, if_neg]
        omega

/-- The matrix holds the cells as last set, and the cells of other nodes have never been set. -/
structure Recorded (r : RouteLogic ε) (links : ℕ → ℕ → AdjEntry ε) : Prop where
  cells : ∀ i j, i < r.size → j < r.size → r.cell i j = links i j
  others : ∀ i j, ¬ (i < r.size ∧ j < r.size) → links i j = ⟨infinity, none⟩

/-- Room for two more nodes leaves the cells as they were just if no entry is lost. -/
theorem Recorded.grown_iff (h : r.Recorded links) :
    (r.grown src dst).Recorded links ↔ r.Spares src dst := by
  unfold Spares
  by_cases hin : src < r.size ∧ dst < r.size
  · rw [grown_eq_self hin.1 hin.2]
    exact ⟨fun _ => .inl hin, fun _ => h⟩
  · have hle := (r.fits_grown src dst).2.2
    constructor
    · intro hr
      right
      intro i j hi hj
      have hcell := hr.cells i j (hi.trans_le hle) (hj.trans_le hle)
      rw [cell_grown hin (hi.trans_le hle) (hj.trans_le hle), if_pos ⟨hi, hj⟩] at hcell
      rw [h.cells i j hi hj, ← hcell]
    · intro hs
      have hnone := hs.resolve_left hin
      refine ⟨fun i j hi hj => ?_, fun i j ho => h.others i j (by omega)⟩
      rw [cell_grown hin hi hj]
      split
      · next hij =>
        rw [← h.cells i j hij.1 hij.2, ← hnone i j hij.1 hij.2]
      · next hij => exact (h.others i j hij).symm

/-- The cell of one link is set. -/
def put (r : RouteLogic ε) (src dst : ℕ) (e : AdjEntry ε) : RouteLogic ε :=
  { r with adj := Function.update r.adj (index src dst r.size) e }

theorem cell_put (e : AdjEntry ε) (hj : j < r.size) (hd : dst < r.size) :
    (r.put src dst e).cell i j = if i = src ∧ j = dst then e else r.cell i j := by
  unfold cell put
  dsimp only
  rw [Function.update_apply, if_congr (index_inj hj hd) rfl rfl]

theorem Recorded.put (h : r.Recorded links) (hs : src < r.size) (hd : dst < r.size)
    (e : AdjEntry ε) : (r.put src dst e).Recorded (setCell links src dst e) := by
  constructor
  · intro i j hi hj
    have hj : j < r.size := hj
    rw [cell_put e hj hd]
    unfold setCell
    split
    · rfl
    · exact h.cells i j hi hj
  · intro i j ho
    unfold setCell
    rw [if_neg]
    · exact h.others i j ho
    · rintro ⟨rfl, rfl⟩
      exact ho ⟨hs, hd⟩

/-- Setting a cell among larger ones changes no other, and it loses those that growing loses. -/
theorem Recorded.put_grown_iff (h : r.Recorded links) {e e' : AdjEntry ε}
    (he : r.Spares src dst → e = e') :
    ((r.grown src dst).put src dst e).Recorded (setCell links src dst e') ↔ r.Spares src dst := by
  obtain ⟨hs, hd, hle⟩ := r.fits_grown src dst
  constructor
  · intro hr
    by_cases hin : src < r.size ∧ dst < r.size
    · exact .inl hin
    right
    intro i j hi hj
    have hne : ¬ (i = src ∧ j = dst) := by
      rintro ⟨rfl, rfl⟩
      exact hin ⟨hi, hj⟩
    have hcell := hr.cells i j (hi.trans_le hle) (hj.trans_le hle)
    rw [cell_put e (hj.trans_le hle) hd, setCell, if_neg hne, if_neg hne,
      cell_grown hin (hi.trans_le hle) (hj.trans_le hle), if_pos ⟨hi, hj⟩] at hcell
    rw [h.cells i j hi hj, ← hcell]
  · intro hspares
    rw [he hspares]
    exact (h.grown_iff.mpr hspares).put hs hd e'

theorem Recorded.insert_iff (h : r.Recorded links) (c : ℚ) :
    (r.insert src dst c).Recorded (setCell links src dst ⟨c, (links src dst).entry⟩) ↔
      r.Spares src dst := by
  obtain ⟨hs, hd, -⟩ := r.fits_grown src dst
  refine h.put_grown_iff (e := ⟨c, ((r.grown src dst).cell src dst).entry⟩) ?_
  intro hspares
  rw [(h.grown_iff.mpr hspares).cells src dst hs hd]

theorem Recorded.insertEntry_iff (h : r.Recorded links) (c : ℚ) (entry : Option ε) :
    (r.insertEntry src dst c entry).Recorded (setCell links src dst ⟨c, entry⟩) ↔
      r.Spares src dst :=
  h.put_grown_iff (e := ⟨c, entry⟩) fun _ => rfl

theorem Recorded.reset (h : r.Recorded links) (hr : r.reset src dst = some r') :
    r'.Recorded (setCell links src dst ⟨infinity, (links src dst).entry⟩) := by
  unfold RouteLogic.reset at hr
  split at hr
  · next hlt =>
    obtain rfl := Option.some.inj hr
    rw [← h.cells src dst hlt.1 hlt.2]
    exact h.put hlt.1 hlt.2 ⟨infinity, (r.cell src dst).entry⟩
  · simp at hr

/-! ### Runs -/

theorem checked_eq_ok : r.checked = .ok r' ↔ r.size * r.size < 2 ^ 31 ∧ r' = r := by
  unfold checked
  split
  · next h =>
    rw [Except.ok.injEq]
    exact ⟨fun he => ⟨h, he.symm⟩, fun he => he.2.symm⟩
  · next h => exact iff_of_false (by simp) fun hr => h hr.1

theorem Sized.grown (h : r.Sized) (src dst : ℕ) : (r.grown src dst).Sized :=
  ((h.check src).1.check dst).1

theorem route_check (r : RouteLogic ε) (n : ℕ) : (r.check n).route = r.route := by
  have hfold : ∀ (ps : List (ℕ × ℕ)) (new : RouteLogic ε),
      (ps.foldl r.copyCost new).route = new.route := by
    intro ps
    induction ps with
    | nil => exact fun _ => rfl
    | cons p ps ih => exact fun _ => ih _
  unfold check
  split
  · rfl
  · exact hfold _ _

theorem route_grown (r : RouteLogic ε) (src dst : ℕ) : (r.grown src dst).route = r.route :=
  (route_check _ _).trans (route_check _ _)

theorem lookupFlat_congr (hsize : r'.size = r.size) (hroute : r'.route = r.route) (sid did : ℕ) :
    r'.lookupFlat sid did = r.lookupFlat sid did := by
  unfold lookupFlat
  rw [hsize, hroute]

/-- A call leaves the number of cells an `int`. -/
theorem call_sized {x : RouteCall ε} (h : r.Sized ∧ r.size * r.size < 2 ^ 31)
    (hs : r.call x = .ok r') : r'.Sized ∧ r'.size * r'.size < 2 ^ 31 := by
  cases x with
  | insert src dst c =>
    obtain ⟨hlt, rfl⟩ := checked_eq_ok.mp hs
    exact ⟨h.1.grown src dst, hlt⟩
  | insertEntry src dst c entry =>
    obtain ⟨hlt, rfl⟩ := checked_eq_ok.mp hs
    exact ⟨h.1.grown src dst, hlt⟩
  | reset src dst =>
    unfold call RouteLogic.reset at hs
    dsimp only at hs
    split_ifs at hs
    obtain rfl := Except.ok.inj hs
    exact h
  | compute memory =>
    obtain rfl := Except.ok.inj hs
    exact h
  | lookup sid did =>
    obtain rfl := Except.ok.inj hs
    exact h

/-- Setting a link works just if the numbers of both nodes are below 2^15. -/
theorem insert_works_iff (h : r.Sized) (hr : r.size * r.size < 2 ^ 31) (c : ℚ)
    (entry : Option ε) :
    ((∃ r', r.call (.insert src dst c) = .ok r') ↔ src < 2 ^ 15 ∧ dst < 2 ^ 15) ∧
      ((∃ r', r.call (.insertEntry src dst c entry) = .ok r') ↔
        src < 2 ^ 15 ∧ dst < 2 ^ 15) := by
  have hg := (h.grown src dst).square_lt_iff.trans
    (grown_lt_iff src dst h (h.square_lt_iff.mp hr))
  have hok : ∀ new : RouteLogic ε, new.size = (r.grown src dst).size →
      ((∃ r', new.checked = .ok r') ↔ src < 2 ^ 15 ∧ dst < 2 ^ 15) := by
    intro new hsize
    rw [← hg, ← hsize]
    exact ⟨fun ⟨_, he⟩ => (checked_eq_ok.mp he).1, fun hlt => ⟨new, checked_eq_ok.mpr ⟨hlt, rfl⟩⟩⟩
  exact ⟨hok _ rfl, hok _ rfl⟩

end RouteLogic

/-- The cells are as last set, the routes are those that have been computed last while the matrix
has not grown, and the lookups of nodes that were known then have answered what they answered
then. -/
structure Survives {ε : Type} (p : RouteLogic ε × RouteHistory ε) : Prop where
  recorded : p.1.Recorded p.2.links
  known_le : p.2.known ≤ p.1.size
  current : p.1.size = p.2.known → ∀ sid did, p.1.lookupFlat sid did = p.2.hops sid did
  answered : ∀ a ∈ p.2.answers, a.1 = a.2

section Runs

variable {ε : Type} {p p' : RouteLogic ε × RouteHistory ε} {x : RouteCall ε}

theorem routeRuns_step (hs : (routeRuns ε).step p x = .ok p') :
    p.1.call x = .ok p'.1 ∧ p'.2 = p.2.record p.1 x p'.1 :=
  (Machine.withHistory_step_iff _).mp hs

/-- A call leaves the cells as last set just if it spares them. -/
theorem recorded_iff (h : p.1.Recorded p.2.links) (hs : (routeRuns ε).step p x = .ok p') :
    p'.1.Recorded p'.2.links ↔ p.1.SparesCall x := by
  obtain ⟨hcall, hlog⟩ := routeRuns_step hs
  rw [hlog]
  cases x with
  | insert src dst c =>
    obtain ⟨-, hnew⟩ := checked_eq_ok.mp hcall
    rw [hnew]
    exact h.insert_iff c
  | insertEntry src dst c entry =>
    obtain ⟨-, hnew⟩ := checked_eq_ok.mp hcall
    rw [hnew]
    exact h.insertEntry_iff c entry
  | reset src dst =>
    refine iff_of_true ?_ trivial
    unfold RouteLogic.call at hcall
    dsimp only at hcall
    split at hcall
    · next hr =>
      rw [← Except.ok.inj hcall]
      exact h.reset hr
    · simp at hcall
  | compute memory =>
    refine iff_of_true ?_ trivial
    rw [← Except.ok.inj hcall]
    exact ⟨h.cells, h.others⟩
  | lookup sid did =>
    refine iff_of_true ?_ trivial
    rw [← Except.ok.inj hcall]
    unfold RouteHistory.record
    dsimp only
    split <;> exact h

/-- What a call that sets a link keeps of the routes. -/
theorem Survives.set {r : RouteLogic ε} {h : RouteHistory ε} (hp : Survives p)
    (hr : r.Recorded h.links) (hsize : p.1.size ≤ r.size) (hroute : r.route = p.1.route)
    (hknown : h.known = p.2.known) (hhops : h.hops = p.2.hops)
    (hanswers : h.answers = p.2.answers) : Survives (r, h) where
  recorded := hr
  known_le := hknown ▸ hp.known_le.trans hsize
  current := by
    intro he sid did
    dsimp only at he ⊢
    have hsame : r.size = p.1.size := by
      have := hp.known_le
      omega
    rw [lookupFlat_congr hsame hroute, hhops]
    exact hp.current (by omega) sid did
  answered := hanswers ▸ hp.answered

theorem Survives.step (h : Survives p) (hx : p.1.SparesCall x ∧ SteadyLookup p x)
    (hs : (routeRuns ε).step p x = .ok p') : Survives p' := by
  have hrecorded := (recorded_iff h.recorded hs).mpr hx.1
  obtain ⟨hcall, hlog⟩ := routeRuns_step hs
  obtain ⟨r', h'⟩ := p'
  dsimp only at hcall hlog hrecorded
  subst hlog
  cases x with
  | insert src dst c =>
    obtain ⟨-, rfl⟩ := checked_eq_ok.mp hcall
    exact h.set hrecorded (p.1.fits_grown src dst).2.2 (route_grown _ _ _) rfl rfl rfl
  | insertEntry src dst c entry =>
    obtain ⟨-, rfl⟩ := checked_eq_ok.mp hcall
    exact h.set hrecorded (p.1.fits_grown src dst).2.2 (route_grown _ _ _) rfl rfl rfl
  | reset src dst =>
    unfold RouteLogic.call RouteLogic.reset at hcall
    dsimp only at hcall
    split_ifs at hcall
    obtain rfl := Except.ok.inj hcall
    exact h.set hrecorded le_rfl rfl rfl rfl rfl
  | compute memory =>
    obtain rfl := Except.ok.inj hcall
    exact ⟨hrecorded, le_rfl, fun _ _ _ => rfl, h.answered⟩
  | lookup sid did =>
    obtain rfl := Except.ok.inj hcall
    unfold RouteHistory.record
    dsimp only
    split
    · refine ⟨h.recorded, h.known_le, h.current, ?_⟩
      exact List.forall_mem_cons.mpr ⟨h.current hx.2 sid did, h.answered⟩
    · exact h

end Runs

theorem steadyRuns_invariant (ε : Type) :
    (steadyRuns ε).Invariant Survives where
  init := by
    rintro ⟨r, h⟩ ⟨rfl, rfl⟩
    exact ⟨⟨fun _ _ hi => absurd hi (Nat.not_lt_zero _), fun _ _ _ => rfl⟩, le_rfl,
      fun _ _ _ => rfl, by simp [noRoutes]⟩
  step _ _ _ hp he hs := hp.step he.2 hs

theorem routeCalls_invariant (ε : Type) :
    (routeCalls ε).Invariant fun r => r.Sized ∧ r.size * r.size < 2 ^ 31 where
  init := by
    rintro r rfl
    exact ⟨.inl rfl, by simp [RouteLogic.empty]⟩
  step _ _ _ h _ hs := call_sized h hs

/-- In the runs in which the matrix grows only while there are no entries, and not between the
computation of the routes and a lookup, every cell is as last set and every lookup answers what
it answered when the routes were computed. A call leaves the other cells as they were just if
the matrix does not grow or there are no entries, and an insertion works in every run just if the
numbers of its nodes are below 2^15. -/
theorem tables_survive {ε : Type} :
    (∀ p, (steadyRuns ε).Reachable p →
      (∀ i j, i < p.1.size → j < p.1.size → p.1.cell i j = p.2.links i j) ∧
        (∀ a ∈ p.2.answers, a.1 = a.2) ∧
        ∀ x p', (routeRuns ε).step p x = .ok p' →
          (p'.1.Recorded p'.2.links ↔ p.1.SparesCall x)) ∧
      ∀ r, (routeCalls ε).Reachable r → ∀ src dst c entry,
        ((∃ r', r.call (.insert src dst c) = .ok r') ↔ src < 2 ^ 15 ∧ dst < 2 ^ 15) ∧
          ((∃ r', r.call (.insertEntry src dst c entry) = .ok r') ↔
            src < 2 ^ 15 ∧ dst < 2 ^ 15) := by
  constructor
  · intro p hp
    have h := (steadyRuns_invariant ε).reachable hp
    exact ⟨h.recorded.cells, h.answered, fun x p' hs => recorded_iff h.recorded hs⟩
  · intro r hr src dst c entry
    obtain ⟨hsized, hsquare⟩ := (routeCalls_invariant ε).reachable hr
    exact insert_works_iff hsized hsquare c entry

instance {ε : Type} (r : RouteLogic ε) (src dst : ℕ) : Decidable (r.Spares src dst) :=
  decidable_of_iff (src < r.size ∧ dst < r.size ∨
      ∀ i < r.size, ∀ j < r.size, (r.cell i j).entry.isNone)
    (or_congr Iff.rfl
      ⟨fun h i j hi hj => Option.isNone_iff_eq_none.mp (h i hi j hj),
        fun h i hi j hj => Option.isNone_iff_eq_none.mpr (h i j hi hj)⟩)

instance {ε : Type} (r : RouteLogic ε) : ∀ x, Decidable (r.SparesCall x)
  | .insert src dst _ => inferInstanceAs (Decidable (r.Spares src dst))
  | .insertEntry src dst _ _ => inferInstanceAs (Decidable (r.Spares src dst))
  | .reset _ _ => inferInstanceAs (Decidable True)
  | .compute _ => inferInstanceAs (Decidable True)
  | .lookup _ _ => inferInstanceAs (Decidable True)

instance {ε : Type} (p : RouteLogic ε × RouteHistory ε) : ∀ x, Decidable (SteadyLookup p x)
  | .insert _ _ _ => inferInstanceAs (Decidable True)
  | .insertEntry _ _ _ _ => inferInstanceAs (Decidable True)
  | .reset _ _ => inferInstanceAs (Decidable True)
  | .compute _ => inferInstanceAs (Decidable True)
  | .lookup _ _ => inferInstanceAs (Decidable (p.1.size = p.2.known))

instance {ε : Type} (p : RouteLogic ε × RouteHistory ε) (x : RouteCall ε) :
    Decidable ((routeRuns ε).Enabled p x) :=
  inferInstanceAs (Decidable True)

instance {ε : Type} (p : RouteLogic ε × RouteHistory ε) (x : RouteCall ε) :
    Decidable ((steadyRuns ε).Enabled p x) :=
  inferInstanceAs (Decidable (True ∧ p.1.SparesCall x ∧ SteadyLookup p x))

theorem tables_survive_row : ∃ p, (steadyRuns Unit).Reachable p ∧ p.2.answers = [(1, 1)] ∧
    (∀ i j, i < p.1.size → j < p.1.size → p.1.cell i j = p.2.links i j) := by
  have h₀ : (steadyRuns Unit).Reachable (.empty Unit, noRoutes Unit) := .init ⟨rfl, rfl⟩
  obtain ⟨p, h, hp⟩ := h₀.exists_of_exec
    [.insertEntry 1 2 1 (some ()), .insert 2 3 1, .compute fun _ => 0, .lookup 0 2]
    (fun p => p.2.answers = [(1, 1)]) (by decide +kernel)
  exact ⟨p, h, of_decide_eq_true hp, (tables_survive.1 p h).1⟩

/-- A third node of a larger number: the entry of the first link is lost, and the first hop to
node 2 is looked up in the row of another node. -/
theorem growth_forgets : ∃ p, (routeRuns Unit).Reachable p ∧
    (p.2.links 1 2).entry = some () ∧ (p.1.cell 1 2).entry = none ∧
    p.2.answers = [(2, 1), (1, 1)] := by
  have h₀ : (routeRuns Unit).Reachable (.empty Unit, noRoutes Unit) := .init ⟨rfl, rfl⟩
  obtain ⟨p, h, hp⟩ := h₀.exists_of_exec
    [.insertEntry 1 2 1 (some ()), .insert 2 3 1, .compute fun _ => 0, .lookup 0 2,
      .insert 20 1 1, .lookup 0 2]
    (fun p => (p.2.links 1 2).entry = some () ∧ (p.1.cell 1 2).entry = none ∧
      p.2.answers = [(2, 1), (1, 1)]) (by decide +kernel)
  exact ⟨p, h, of_decide_eq_true hp⟩

end Ns2XPass
