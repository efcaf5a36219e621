import Ns2XPass.Dccp.Features
import Ns2XPass.Library.Path

/-! # The records of feature negotiations

The four arrays stand for one record for each feature under negotiation. Adding
a feature and announcing features change the records of these features only. A
negotiation that ends moves the numbers and locations behind it one step up, but
not the sequence numbers and the first flags, so the records of the others stay
as they are only if these agree.
-/

namespace Ns2XPass

/-- The packet that a feature was last announced on, and whether it still has to be announced. -/
structure FeatureRecord where
  seqNum : ℕ
  first : Bool
  deriving DecidableEq

namespace FeatureList

variable {l : FeatureList} {k k' : Feature} {i n w : ℕ} {r : FeatureRecord}

/-- No feature has two entries. -/
def Distinct (l : FeatureList) : Prop :=
  ∀ i j, i < l.used → j < l.used → l.key i = l.key j → i = j

def entry (l : FeatureList) (i : ℕ) : FeatureRecord := ⟨l.seqNum i, l.first i⟩

/-- The record of a feature under negotiation. -/
def record (l : FeatureList) (k : Feature) : Option FeatureRecord :=
  (l.findFeatureInList k.1 k.2).map l.entry

theorem find_eq_none : l.findFeatureInList k.1 k.2 = none ↔ ∀ i < l.used, l.key i ≠ k := by
  simp [findFeatureInList, List.find?_eq_none]

theorem find_eq_some (hd : l.Distinct) :
    l.findFeatureInList k.1 k.2 = some i ↔ i < l.used ∧ l.key i = k := by
  rw [findFeatureInList, List.find?_range_eq_some]
  constructor
  · rintro ⟨hk, hi, -⟩
    exact ⟨List.mem_range.mp hi, of_decide_eq_true hk⟩
  · rintro ⟨hi, hk⟩
    refine ⟨decide_eq_true hk, List.mem_range.mpr hi, fun j hj => ?_⟩
    have : l.key j ≠ k := fun hjk => (hd j i (by omega) hi (hjk.trans hk.symm)).not_lt hj
    simpa using this

theorem isChanging_iff : l.featureIsChanging k.1 k.2 = true ↔ ∃ i < l.used, l.key i = k := by
  simp [featureIsChanging]

theorem record_eq_some (hd : l.Distinct) :
    l.record k = some r ↔ ∃ i < l.used, l.key i = k ∧ l.entry i = r := by
  rw [record, Option.map_eq_some_iff]
  constructor
  · rintro ⟨i, hi, hr⟩
    exact ⟨i, ((find_eq_some hd).mp hi).1, ((find_eq_some hd).mp hi).2, hr⟩
  · rintro ⟨i, hi, hk, hr⟩
    exact ⟨i, (find_eq_some hd).mpr ⟨hi, hk⟩, hr⟩

theorem record_eq_none : l.record k = none ↔ ∀ i < l.used, l.key i ≠ k := by
  rw [record, Option.map_eq_none_iff, find_eq_none]

/-- Two lists have the same records if they have the same entries. -/
theorem record_congr {l' : FeatureList} (hd : l.Distinct) (hd' : l'.Distinct)
    (h : ∀ r, (∃ i < l'.used, l'.key i = k ∧ l'.entry i = r) ↔
      ∃ i < l.used, l.key i = k' ∧ l.entry i = r) : l'.record k = l.record k' := by
  ext1 r
  rw [record_eq_some hd, record_eq_some hd']
  exact h r

/-! ## Changing a feature -/

/-- A new record for the feature at a place. -/
def put (l : FeatureList) (i : ℕ) (r : FeatureRecord) : FeatureList :=
  { l with seqNum := Function.update l.seqNum i r.seqNum, first := Function.update l.first i r.first }

theorem entry_put {j : ℕ} : (l.put i r).entry j = if j = i then r else l.entry j := by
  unfold entry put
  by_cases h : j = i
  · subst h
    simp
  · simp [h]

theorem Distinct.put (hd : l.Distinct) : (l.put i r).Distinct := hd

theorem record_put (hd : l.Distinct) (hi : i < l.used) (hk : l.key i = k) :
    (l.put i r).record = Function.update l.record k (some r) := by
  funext k'
  by_cases hkk : k' = k
  · subst hkk
    rw [Function.update_self, record_eq_some hd.put]
    exact ⟨i, hi, hk, by rw [entry_put, if_pos rfl]⟩
  · rw [Function.update_of_ne hkk]
    apply record_congr hd hd.put
    intro r'
    have hne : ∀ j, l.key j = k' → j ≠ i := by
      rintro j hjk rfl
      exact hkk (hjk.symm.trans hk)
    constructor
    · rintro ⟨j, hj, hjk, he⟩
      rw [entry_put, if_neg (hne j hjk)] at he
      exact ⟨j, hj, hjk, he⟩
    · rintro ⟨j, hj, hjk, he⟩
      exact ⟨j, hj, hjk, by rwa [entry_put, if_neg (hne j hjk)]⟩

/-- A new entry behind all others. -/
def add (l : FeatureList) (k : Feature) : FeatureList where
  num := Function.update l.num l.used k.1
  loc := Function.update l.loc l.used k.2
  seqNum := Function.update l.seqNum l.used 0
  first := Function.update l.first l.used true
  used := l.used + 1

theorem key_add : (l.add k).key i = if i = l.used then k else l.key i := by
  unfold key add
  by_cases h : i = l.used
  · subst h
    simp
  · simp [h]

theorem entry_add : (l.add k).entry i = if i = l.used then ⟨0, true⟩ else l.entry i := by
  unfold entry add
  by_cases h : i = l.used
  · subst h
    simp
  · simp [h]

theorem Distinct.add (hd : l.Distinct) (hk : ∀ i < l.used, l.key i ≠ k) : (l.add k).Distinct := by
  intro i j hi hj hij
  change i < l.used + 1 at hi
  change j < l.used + 1 at hj
  rw [key_add, key_add] at hij
  split at hij <;> split at hij
  · omega
  · exact absurd hij.symm (hk j (by omega))
  · exact absurd hij (hk i (by omega))
  · exact hd i j (by omega) (by omega) hij

theorem record_add (hd : l.Distinct) (hk : ∀ i < l.used, l.key i ≠ k) :
    (l.add k).record = Function.update l.record k (some ⟨0, true⟩) := by
  funext k'
  by_cases hkk : k' = k
  · subst hkk
    rw [Function.update_self, record_eq_some (hd.add hk)]
    exact ⟨l.used, Nat.lt_succ_self _, by rw [key_add, if_pos rfl], by rw [entry_add, if_pos rfl]⟩
  · rw [Function.update_of_ne hkk]
    apply record_congr hd (hd.add hk)
    intro r
    constructor
    · rintro ⟨j, hj, hjk, he⟩
      change j < l.used + 1 at hj
      have hne : j ≠ l.used := by
        rintro rfl
        rw [key_add, if_pos rfl] at hjk
        exact hkk hjk.symm
      rw [key_add, if_neg hne] at hjk
      rw [entry_add, if_neg hne] at he
      exact ⟨j, by omega, hjk, he⟩
    · rintro ⟨j, hj, hjk, he⟩
      have hne : j ≠ l.used := by omega
      exact ⟨j, Nat.lt_succ_of_lt hj, by rwa [key_add, if_neg hne], by rwa [entry_add, if_neg hne]⟩

/-! ## Finishing a negotiation -/

/-- What the loop that moves the entries one step up leaves. -/
theorem foldl_moveUp (l : FeatureList) (w n : ℕ) :
    (List.range' w n).foldl moveUp l = { l with
      num := fun i => if w ≤ i ∧ i < w + n then l.num (i + 1) else l.num i
      loc := fun i => if w ≤ i ∧ i < w + n then l.loc (i + 1) else l.loc i } := by
  induction n with
  | zero =>
    have hno : ∀ i, ¬ (w ≤ i ∧ i < w + 0) := by omega
    simp only [hno, if_false]
    rfl
  | succ n ih =>
    have hstep : ∀ {β : Type} (f : ℕ → β),
        Function.update (fun i => if w ≤ i ∧ i < w + n then f (i + 1) else f i) (w + n)
          ((fun i => if w ≤ i ∧ i < w + n then f (i + 1) else f i) (w + n + 1)) =
        fun i => if w ≤ i ∧ i < w + (n + 1) then f (i + 1) else f i := by
      intro β f
      funext i
      by_cases hi : i = w + n
      · subst hi
        rw [Function.update_self]
        dsimp only
        rw [if_neg (by omega), if_pos (by omega)]
      · rw [Function.update_of_ne hi]
        by_cases h : w ≤ i ∧ i < w + n
        · rw [if_pos h, if_pos (by omega)]
        · rw [if_neg h, if_neg (by omega)]
    rw [List.range'_1_concat, List.foldl_append, ih, List.foldl_cons, List.foldl_nil, moveUp]
    simp only [hstep]

/-- The sequence numbers and first flags from a place on are all the same. -/
def AlikeFrom (l : FeatureList) (w : ℕ) : Prop :=
  ∀ i, w ≤ i → i + 1 < l.used → l.entry (i + 1) = l.entry i

/-- The list without its entry at a place: what was behind it moves one step up, but for the
sequence numbers and first flags. -/
def finish (l : FeatureList) (w : ℕ) : FeatureList :=
  { l with
    num := fun i => if w ≤ i ∧ i + 1 < l.used then l.num (i + 1) else l.num i
    loc := fun i => if w ≤ i ∧ i + 1 < l.used then l.loc (i + 1) else l.loc i
    used := l.used - 1 }

theorem finishFeatureNegotiation_eq (hw : l.findFeatureInList k.1 k.2 = some w) (hlt : w < l.used) :
    l.finishFeatureNegotiation k.1 k.2 = (true, l.finish w) := by
  have hiff : ∀ i, (w ≤ i ∧ i < w + (l.used - 1 - w)) ↔ w ≤ i ∧ i + 1 < l.used := by omega
  simp only [finishFeatureNegotiation, hw, foldl_moveUp, hiff]
  rfl

theorem key_finish :
    (l.finish w).key i = if w ≤ i ∧ i + 1 < l.used then l.key (i + 1) else l.key i := by
  unfold key finish
  dsimp only
  split <;> rfl

theorem Distinct.finish (hd : l.Distinct) : (l.finish w).Distinct := by
  intro i j hi hj hij
  change i < l.used - 1 at hi
  change j < l.used - 1 at hj
  rw [key_finish, key_finish] at hij
  split at hij <;> split at hij
  · have := hd _ _ (by omega) (by omega) hij
    omega
  · have := hd _ _ (by omega) (by omega) hij
    omega
  · have := hd _ _ (by omega) (by omega) hij
    omega
  · exact hd _ _ (by omega) (by omega) hij

/-- The feature that is finished has no record any more. -/
theorem record_finish_self (hd : l.Distinct) (hw : w < l.used) (hk : l.key w = k) :
    (l.finish w).record k = none := by
  rw [record_eq_none]
  intro i hi hik
  change i < l.used - 1 at hi
  rw [key_finish] at hik
  split at hik
  · have := hd _ _ (by omega) hw (hik.trans hk.symm)
    omega
  · have := hd _ _ (by omega) hw (hik.trans hk.symm)
    omega

/-- A feature behind the one that is finished gets the record that stands before its own. -/
theorem record_finish_behind (hd : l.Distinct) (hi : w ≤ i) (hlt : i + 1 < l.used) :
    (l.finish w).record (l.key (i + 1)) = some (l.entry i) := by
  rw [record_eq_some hd.finish]
  exact ⟨i, by change i < l.used - 1; omega, by rw [key_finish, if_pos ⟨hi, hlt⟩], rfl⟩

/-- The others keep their records if those behind the one that is finished are alike. -/
theorem record_finish (hd : l.Distinct) (hw : w < l.used) (hk : l.key w = k)
    (halike : l.AlikeFrom w) : (l.finish w).record = Function.update l.record k none := by
  funext k'
  by_cases hkk : k' = k
  · subst hkk
    rw [Function.update_self, record_finish_self hd hw hk]
  · rw [Function.update_of_ne hkk]
    apply record_congr hd hd.finish
    intro r
    constructor
    · rintro ⟨i, hi, hik, he⟩
      change i < l.used - 1 at hi
      rw [key_finish] at hik
      split at hik
      · next h => exact ⟨i + 1, h.2, hik, (halike i h.1 h.2).trans he⟩
      · exact ⟨i, by omega, hik, he⟩
    · rintro ⟨j, hj, hjk, he⟩
      rcases lt_trichotomy j w with hlt | rfl | hgt
      · refine ⟨j, by change j < l.used - 1; omega, ?_, he⟩
        rw [key_finish, if_neg (by omega), hjk]
      · exact absurd (hjk.symm.trans hk) hkk
      · obtain ⟨i, rfl⟩ : ∃ i, j = i + 1 := ⟨j - 1, by omega⟩
        refine ⟨i, by change i < l.used - 1; omega, ?_, (halike i (by omega) hj).symm.trans he⟩
        rw [key_finish, if_pos ⟨by omega, hj⟩, hjk]

end FeatureList

/-! ## The calls of an agent -/

namespace FeatureContext

variable (ctx : FeatureContext)

/-- A feature is announced if it is new, or if its last Change should have been confirmed by now. -/
def Due (r : FeatureRecord) : Bool :=
  !ctx.packetRecv || r.first || r.seqNum ≤ ctx.ackNumRecv

/-- The Change option for a feature. -/
def change (k : Feature) : Option FeatureOption :=
  match ctx.values.getFeature k.1 k.2 optMaxLength with
  | .ok data => some ⟨if k.2 = .locLocal then .changeL else .changeR, k.1, data⟩
  | .error _ => none

/-- What announcing the features that are due makes of a record. -/
def announced (k : Feature) (r : FeatureRecord) : FeatureRecord :=
  if ctx.Due r ∧ (ctx.change k).isSome then ⟨ctx.seqNum, false⟩ else r

end FeatureContext

namespace FeatureAgent

variable {a : FeatureAgent} {ctx : FeatureContext} {l : FeatureList} {k : Feature} {n i : ℕ}
  {r : FeatureRecord} {o : FeatureOption}

/-- The entries have different keys, and fit into the arrays and into the counter. -/
structure WellFormed (a : FeatureAgent) : Prop where
  distinct : a.list.Distinct
  used : a.list.used ≤ a.featSize
  small : a.featSize ≤ 255

theorem changeOption_eq : changeOption ctx l i =
    if ctx.Due (l.entry i) then ctx.change (l.key i) else none := rfl

theorem changeFeature_cases (h : a.WellFormed) :
    (∃ pos < a.list.used, a.list.key pos = k ∧ 0 < a.ctx.allowMultNeg ∧
        a.changeFeature k.1 k.2 = (true, { a with list := a.list.put pos ⟨a.ctx.seqNum, true⟩ })) ∨
      (∀ i < a.list.used, a.list.key i ≠ k) ∧ a.list.used < a.featSize ∧
        a.changeFeature k.1 k.2 = (true, { a with list := a.list.add k }) ∨
      a.changeFeature k.1 k.2 = (false, a) := by
  have hmod : a.list.used < a.featSize → (a.list.used + 1) % 256 = a.list.used + 1 := by
    intro hlt
    have := h.small
    exact Nat.mod_eq_of_lt (by omega)
  have hlt : a.list.used ≠ a.featSize → a.list.used < a.featSize := fun hne =>
    lt_of_le_of_ne h.used hne
  unfold changeFeature
  by_cases hmult : 0 < a.ctx.allowMultNeg
  · simp only [if_pos hmult]
    cases hf : a.list.findFeatureInList k.1 k.2 with
    | some pos =>
      obtain ⟨hpos, hk⟩ := (FeatureList.find_eq_some h.distinct).mp hf
      exact .inl ⟨pos, hpos, hk, hmult, rfl⟩
    | none =>
      dsimp only
      by_cases hfull : a.list.used = a.featSize
      · exact .inr (.inr (if_pos hfull))
      · refine .inr (.inl ⟨FeatureList.find_eq_none.mp hf, hlt hfull, ?_⟩)
        rw [if_neg hfull, hmod (hlt hfull)]
        rfl
  · simp only [if_neg hmult]
    by_cases hfull : a.list.used = a.featSize ∨ a.list.featureIsChanging k.1 k.2 = true
    · exact .inr (.inr (if_pos hfull))
    · rw [not_or, FeatureList.isChanging_iff] at hfull
      refine .inr (.inl ⟨fun i hi hk => hfull.2 ⟨i, hi, hk⟩, hlt hfull.1, ?_⟩)
      rw [if_neg (by rwa [not_or, FeatureList.isChanging_iff]), hmod (hlt hfull.1)]
      rfl

/-- What a feature that is put under negotiation, or not, does to the records. -/
theorem record_changeFeature (h : a.WellFormed) (k : Feature) :
    (a.changeFeature k.1 k.2).2.list.record = Function.update a.list.record k
          (some ⟨if a.list.featureIsChanging k.1 k.2 then a.ctx.seqNum else 0, true⟩) ∧
        (a.changeFeature k.1 k.2).1 = true ∧ (a.changeFeature k.1 k.2).2.WellFormed ∨
      a.changeFeature k.1 k.2 = (false, a) := by
  obtain ⟨pos, hpos, hk, -, heq⟩ | ⟨hk, hlt, heq⟩ | heq := changeFeature_cases (k := k) h
  · have hc : a.list.featureIsChanging k.1 k.2 = true :=
      FeatureList.isChanging_iff.mpr ⟨pos, hpos, hk⟩
    rw [heq, if_pos hc]
    exact .inl ⟨FeatureList.record_put h.distinct hpos hk, rfl, h.distinct.put, h.used, h.small⟩
  · have hc : ¬a.list.featureIsChanging k.1 k.2 = true := by
      rw [FeatureList.isChanging_iff]
      rintro ⟨i, hi, hik⟩
      exact hk i hi hik
    rw [heq, if_neg hc]
    exact .inl ⟨FeatureList.record_add h.distinct hk, rfl, h.distinct.add hk, hlt, h.small⟩
  · exact .inr heq

/-- The loop that announces the features: each iteration looks at its own entry. -/
theorem foldl_announce (ctx : FeatureContext) (l : FeatureList) (n : ℕ) :
    (List.range n).foldl (announce ctx) ([], l) =
      ((List.range n).filterMap (changeOption ctx l), { l with
        seqNum := fun i => if i < n ∧ (changeOption ctx l i).isSome then ctx.seqNum else l.seqNum i
        first := fun i => if i < n ∧ (changeOption ctx l i).isSome then false else l.first i }) := by
  induction n with
  | zero => simp
  | succ n ih =>
    rw [List.range_succ, List.foldl_append, ih, List.foldl_cons, List.foldl_nil,
      List.filterMap_append]
    have hsame : changeOption ctx { l with
        seqNum := fun i => if i < n ∧ (changeOption ctx l i).isSome then ctx.seqNum else l.seqNum i
        first := fun i => if i < n ∧ (changeOption ctx l i).isSome then false else l.first i } n =
        changeOption ctx l n := by
      simp only [changeOption, Nat.lt_irrefl, false_and, if_false]
    have hupd : ∀ {β : Type} (f g : ℕ → β), (changeOption ctx l n).isSome →
        Function.update (fun i => if i < n ∧ (changeOption ctx l i).isSome then f i else g i) n (f n)
          = fun i => if i < n + 1 ∧ (changeOption ctx l i).isSome then f i else g i := by
      intro β f g hsome
      funext i
      by_cases hi : i = n
      · subst hi
        rw [Function.update_self, if_pos ⟨Nat.lt_succ_self i, hsome⟩]
      · rw [Function.update_of_ne hi]
        have : i < n + 1 ↔ i < n := by omega
        simp only [this]
    have hkeep : ∀ {β : Type} (f g : ℕ → β), changeOption ctx l n = none →
        (fun i => if i < n ∧ (changeOption ctx l i).isSome then f i else g i) =
          fun i => if i < n + 1 ∧ (changeOption ctx l i).isSome then f i else g i := by
      intro β f g hnone
      funext i
      by_cases hi : i = n
      · subst hi
        simp [hnone]
      · have : i < n + 1 ↔ i < n := by omega
        simp only [this]
    simp only [announce, hsame]
    cases hc : changeOption ctx l n with
    | none =>
      simp only [List.filterMap_cons, hc, List.filterMap_nil, List.append_nil]
      rw [hkeep (fun _ => ctx.seqNum) l.seqNum hc, hkeep (fun _ => false) l.first hc]
    | some o =>
      have hsome : (changeOption ctx l n).isSome := by rw [hc]; rfl
      simp only [List.filterMap_cons, hc, List.filterMap_nil]
      rw [hupd (fun _ => ctx.seqNum) l.seqNum hsome, hupd (fun _ => false) l.first hsome]

theorem list_addFeatureOptions (a : FeatureAgent) :
    a.addFeatureOptions.2.list = { a.list with
      seqNum := fun i => if i < a.list.used ∧ (changeOption a.ctx a.list i).isSome then a.ctx.seqNum
        else a.list.seqNum i
      first := fun i => if i < a.list.used ∧ (changeOption a.ctx a.list i).isSome then false
        else a.list.first i } := by
  rw [addFeatureOptions, foldl_announce]

theorem WellFormed.addFeatureOptions (h : a.WellFormed) : a.addFeatureOptions.2.WellFormed := by
  refine ⟨?_, ?_, h.small⟩
  · rw [list_addFeatureOptions]
    exact h.distinct
  · rw [list_addFeatureOptions]
    exact h.used

/-- Announcing the features changes the records of those that are announced. -/
theorem record_addFeatureOptions (h : a.WellFormed) (k : Feature) :
    a.addFeatureOptions.2.list.record k = (a.list.record k).map (a.ctx.announced k) := by
  ext1 r
  rw [FeatureList.record_eq_some h.addFeatureOptions.distinct, Option.map_eq_some_iff]
  have hentry : ∀ i < a.list.used, a.list.key i = k →
      a.addFeatureOptions.2.list.entry i = a.ctx.announced k (a.list.entry i) := by
    rintro i hi rfl
    rw [list_addFeatureOptions, FeatureContext.announced]
    simp only [FeatureList.entry, changeOption_eq, hi, true_and]
    by_cases hdue : a.ctx.Due ⟨a.list.seqNum i, a.list.first i⟩ = true
    · simp only [hdue, if_true, true_and]
      split <;> rfl
    · simp [hdue]
  constructor
  · rintro ⟨i, hi, hk, he⟩
    rw [list_addFeatureOptions] at hi hk
    exact ⟨a.list.entry i, (FeatureList.record_eq_some h.distinct).mpr ⟨i, hi, hk, rfl⟩,
      (hentry i hi hk).symm.trans he⟩
  · rintro ⟨r', hr', he⟩
    obtain ⟨i, hi, hk, rfl⟩ := (FeatureList.record_eq_some h.distinct).mp hr'
    refine ⟨i, ?_, ?_, (hentry i hi hk).trans he⟩
    · rw [list_addFeatureOptions]
      exact hi
    · rw [list_addFeatureOptions]
      exact hk

/-- The Change options of a packet are those of the features that are due. -/
theorem mem_addFeatureOptions (h : a.WellFormed) (ho : o.type = .changeL ∨ o.type = .changeR) :
    o ∈ a.addFeatureOptions.1 ↔
      ∃ k r, a.list.record k = some r ∧ a.ctx.Due r = true ∧ a.ctx.change k = some o := by
  have hconfirm : o ∉ a.ctx.confirms.filterMap (confirmOption a.ctx) := by
    rw [List.mem_filterMap]
    rintro ⟨f, -, hf⟩
    unfold confirmOption at hf
    split at hf
    · obtain rfl := Option.some.inj hf
      dsimp only at ho
      split at ho <;> simp at ho
    · simp at hf
  rw [addFeatureOptions, foldl_announce, List.mem_append, or_iff_left hconfirm, List.mem_filterMap]
  constructor
  · rintro ⟨i, hi, hc⟩
    rw [changeOption_eq] at hc
    split at hc
    · next hdue =>
      exact ⟨_, _, (FeatureList.record_eq_some h.distinct).mpr ⟨i, List.mem_range.mp hi, rfl, rfl⟩,
        hdue, hc⟩
    · simp at hc
  · rintro ⟨k, r, hr, hdue, hc⟩
    obtain ⟨i, hi, rfl, rfl⟩ := (FeatureList.record_eq_some h.distinct).mp hr
    exact ⟨i, List.mem_range.mpr hi, by rw [changeOption_eq, if_pos hdue, hc]⟩

end FeatureAgent

end Ns2XPass
