import Ns2XPass.Dccp.Negotiation

/-! # Whole runs of feature negotiations

A history variable remembers for each feature the packet of its last Change. In
the runs in which the entries behind a finished one are alike, the records of
the arrays agree with it.
-/

namespace Ns2XPass

inductive FeatureCall
  | changeFeature (num : UInt8) (loc : FeatureLocation)
  | addFeatureOptions
  | confirm (right : Bool) (data : List UInt8) (pkt : DccpHeader)
  /-- The rest of the agent goes on. -/
  | context (ctx : FeatureContext)

/-- The feature that a Change option is about. -/
def FeatureOption.changes (o : FeatureOption) : Option Feature :=
  match o.type with
  | .changeL => some (o.num, .locLocal)
  | .changeR => some (o.num, .locRemote)
  | .confirmL | .confirmR => none

theorem FeatureOption.type_of_changes (o : FeatureOption) {k : Feature} (h : o.changes = some k) :
    o.type = .changeL ∨ o.type = .changeR := by
  unfold changes at h
  split at h
  · next he => exact .inl he
  · next he => exact .inr he
  · simp at h
  · simp at h

/-- The feature that a Confirm option is about. -/
def confirmed (right : Bool) (data : List UInt8) : Option Feature :=
  data.head?.map fun num => (num, if right then .locLocal else .locRemote)

/-- The packet type carries an acknowledgement number that Confirm options are compared with. -/
def DccpHeader.Acks (pkt : DccpHeader) : Prop :=
  pkt.type = .ack ∨ pkt.type = .dataAck ∨ pkt.type = .response

instance (pkt : DccpHeader) : Decidable pkt.Acks :=
  inferInstanceAs (Decidable (_ ∨ _ ∨ _))

/-- The numbers of the features that every agent has. -/
def FeatureValues.known : List UInt8 := [1, 2, 3, 4, 126, 127]

namespace FeatureContext

variable {ctx : FeatureContext} {k : Feature} {o : FeatureOption}

theorem changes_of_change (h : ctx.change k = some o) : o.changes = some k := by
  obtain ⟨num, loc⟩ := k
  unfold change at h
  split at h
  · obtain rfl := Option.some.inj h
    cases loc <;> rfl
  · simp at h

theorem exists_change (h : k.1 ∈ FeatureValues.known) : ∃ o, ctx.change k = some o := by
  obtain ⟨num, loc⟩ := k
  have hget : ∃ data, ctx.values.getFeature num loc optMaxLength = .ok data := by
    simp only [FeatureValues.known, List.mem_cons, List.not_mem_nil, or_false] at h
    obtain rfl | rfl | rfl | rfl | rfl | rfl := h <;> cases loc <;> exact ⟨_, rfl⟩
  obtain ⟨data, hdata⟩ := hget
  exact ⟨_, by rw [change, hdata]⟩

end FeatureContext

namespace FeatureAgent

variable {a a' : FeatureAgent} {k k' : Feature} {r : FeatureRecord} {right : Bool}
  {data : List UInt8} {pkt : DccpHeader} {since : Feature → Option ℕ}

/-- The features that the next packet announces. -/
def announces (a : FeatureAgent) : List Feature :=
  a.addFeatureOptions.1.filterMap FeatureOption.changes

theorem mem_announces (h : a.WellFormed) :
    k ∈ a.announces ↔
      ∃ r, a.list.record k = some r ∧ a.ctx.Due r = true ∧ (a.ctx.change k).isSome := by
  rw [announces, List.mem_filterMap]
  constructor
  · rintro ⟨o, ho, hk⟩
    obtain ⟨k', r, hr, hdue, hc⟩ := (mem_addFeatureOptions h (o.type_of_changes hk)).mp ho
    obtain rfl : k' = k := Option.some.inj ((FeatureContext.changes_of_change hc).symm.trans hk)
    exact ⟨r, hr, hdue, by rw [hc]; rfl⟩
  · rintro ⟨r, hr, hdue, hsome⟩
    obtain ⟨o, ho⟩ := Option.isSome_iff_exists.mp hsome
    have hk := FeatureContext.changes_of_change ho
    exact ⟨o, (mem_addFeatureOptions h (o.type_of_changes hk)).mpr ⟨k, r, hr, hdue, ho⟩, hk⟩

/-! ## Confirm options -/

/-- A Confirm option that is accepted finishes its own entry, after the check of the packet that
it acknowledges. All others leave the list as it is. -/
theorem confirm_cases (h : a.WellFormed) (loc : FeatureLocation) (data : List UInt8)
    (pkt : DccpHeader) :
    (∃ num ds w, data = num :: ds ∧ w < a.list.used ∧ a.list.key w = (num, loc) ∧
        (a.confirm loc data pkt).1 = .accepted ∧
        (a.confirm loc data pkt).2.list = a.list.finish w ∧
        (0 < a.ctx.allowMultNeg → pkt.Acks → a.list.seqNum w ≤ pkt.ackNum)) ∨
      (a.confirm loc data pkt).1 ≠ .accepted ∧ (a.confirm loc data pkt).2.list = a.list := by
  unfold confirm
  split
  · next num d ds =>
    split
    · exact .inr ⟨by simp, rfl⟩
    · next pos hpos =>
      obtain ⟨hlt, hk⟩ := (FeatureList.find_eq_some (k := (num, loc)) h.distinct).mp hpos
      split
      · exact .inr ⟨by simp, rfl⟩
      · next hack =>
        split
        · exact .inr ⟨by simp, rfl⟩
        · cases a.ctx.values.setFeature num loc (d :: ds) false with
          | error e => exact .inr ⟨by simp, rfl⟩
          | ok values =>
            refine .inl ⟨num, d :: ds, pos, rfl, hlt, hk, rfl, ?_, fun hm ht => ?_⟩
            · dsimp only
              rw [FeatureList.finishFeatureNegotiation_eq (k := (num, loc)) hpos hlt]
              rfl
            · by_contra hlt
              exact hack ⟨hm, ht, not_le.mp hlt⟩
  · exact .inr ⟨by simp, rfl⟩

theorem featSize_confirm (loc : FeatureLocation) :
    (a.confirm loc data pkt).2.featSize = a.featSize := by
  unfold confirm
  repeat' split
  all_goals rfl

/-- A Confirm option that arrives out of order or is not allowed is ignored. -/
theorem processOption_eq (a : FeatureAgent) (right : Bool) (data : List UInt8) (pkt : DccpHeader) :
    a.processOption right data pkt = (.ignored, a) ∨
      a.processOption right data pkt =
        { a with ctx := { a.ctx with
          seqLastFeatNeg := pkt.seqNum, featFirstInPkt := false } }.confirm
            (if right then .locLocal else .locRemote) data pkt := by
  unfold processOption
  dsimp only
  by_cases hopen : a.ctx.isOpen = true ∧ data.head?.map FeatureValues.getFeatureType =
      some (if right then .nn else .sp)
  · exact .inl (if_pos hopen)
  · rw [if_neg hopen]
    by_cases hseq : a.ctx.packetRecv = true ∧ a.ctx.featFirstInPkt = true ∧
        pkt.seqNum ≤ a.ctx.seqLastFeatNeg
    · exact .inl (if_pos hseq)
    · exact .inr (if_neg hseq)

theorem processOption_cases (h : a.WellFormed) (right : Bool) (data : List UInt8)
    (pkt : DccpHeader) :
    (∃ k w, confirmed right data = some k ∧ w < a.list.used ∧ a.list.key w = k ∧
        (a.processOption right data pkt).1 = .accepted ∧
        (a.processOption right data pkt).2.list = a.list.finish w ∧
        (0 < a.ctx.allowMultNeg → pkt.Acks → a.list.seqNum w ≤ pkt.ackNum)) ∨
      (a.processOption right data pkt).1 ≠ .accepted ∧
        (a.processOption right data pkt).2.list = a.list := by
  obtain heq | heq := processOption_eq a right data pkt
  · rw [heq]
    exact .inr ⟨by simp, rfl⟩
  · rw [heq]
    have hc := confirm_cases (a := { a with ctx := { a.ctx with
      seqLastFeatNeg := pkt.seqNum, featFirstInPkt := false } })
      ⟨h.distinct, h.used, h.small⟩ (if right then .locLocal else .locRemote) data pkt
    obtain ⟨num, ds, w, rfl, hw, hk, ho, hl, hack⟩ | hc := hc
    · exact .inl ⟨_, w, rfl, hw, hk, ho, hl, hack⟩
    · exact .inr hc

theorem featSize_processOption : (a.processOption right data pkt).2.featSize = a.featSize := by
  obtain heq | heq := processOption_eq a right data pkt
  · rw [heq]
  · rw [heq, featSize_confirm]

theorem WellFormed.processOption (h : a.WellFormed) :
    (a.processOption right data pkt).2.WellFormed := by
  obtain ⟨k, w, -, -, -, -, hl, -⟩ | ⟨-, hl⟩ := processOption_cases h right data pkt
  · refine ⟨by rw [hl]; exact h.distinct.finish, ?_, by rw [featSize_processOption]; exact h.small⟩
    rw [hl, featSize_processOption]
    exact (Nat.sub_le _ _).trans h.used
  · refine ⟨by rw [hl]; exact h.distinct, ?_, by rw [featSize_processOption]; exact h.small⟩
    rw [hl, featSize_processOption]
    exact h.used

/-! ## Runs -/

/-- A Confirm option that cannot be applied resets the connection. -/
def step (a : FeatureAgent) : FeatureCall → Except FeatureError FeatureAgent
  | .changeFeature num loc => .ok (a.changeFeature num loc).2
  | .addFeatureOptions => .ok a.addFeatureOptions.2
  | .confirm right data pkt =>
    match a.processOption right data pkt with
    | (.reset e, _) => .error e
    | (_, a) => .ok a
  | .context ctx => .ok { a with ctx }

/-- The agent accepts the call as a Confirm for a feature. -/
def Finishes (a : FeatureAgent) (k : Feature) : FeatureCall → Prop
  | .confirm right data pkt =>
    (a.processOption right data pkt).1 = .accepted ∧ confirmed right data = some k
  | _ => False

/-- The entries from the finished one on have the same sequence number and first flag. -/
def Tidy (a : FeatureAgent) (x : FeatureCall) : Prop :=
  ∀ k w, a.Finishes k x → a.list.findFeatureInList k.1 k.2 = some w → a.list.AlikeFrom w

/-- The packet from which on a Confirm can answer the last Change of a feature: the one that
carried it, or the next one if the feature has been changed again since. -/
def recordSince (a : FeatureAgent) (x : FeatureCall) (_ : FeatureAgent)
    (since : Feature → Option ℕ) : Feature → Option ℕ :=
  match x with
  | .changeFeature num loc =>
    if (a.changeFeature num loc).1 then
      Function.update since (num, loc)
        (if a.list.featureIsChanging num loc then some a.ctx.seqNum else none)
    else since
  | .addFeatureOptions => fun k => if k ∈ a.announces then some a.ctx.seqNum else since k
  | _ => since

/-- No feature is under negotiation yet, and the number of entries fits into its integer. -/
def machine : Machine FeatureAgent FeatureCall FeatureError where
  Init a := a.list.used = 0 ∧ a.featSize ≤ 255
  Enabled _ _ := True
  step := step

def tidy : Machine FeatureAgent FeatureCall FeatureError := machine.restrict Tidy

def negotiations : Machine (FeatureAgent × (Feature → Option ℕ)) FeatureCall FeatureError :=
  tidy.withHistory (fun _ => none) recordSince

theorem record_confirm (h : a.WellFormed) (ht : a.Tidy (.confirm right data pkt)) :
    (∃ k, a.Finishes k (.confirm right data pkt) ∧
        (a.processOption right data pkt).2.list.record = Function.update a.list.record k none) ∨
      (a.processOption right data pkt).2.list = a.list := by
  obtain ⟨k, w, hk, hw, hkey, ho, hl, -⟩ | ⟨-, hl⟩ := processOption_cases h right data pkt
  · have halike : a.list.AlikeFrom w :=
      ht k w ⟨ho, hk⟩ ((FeatureList.find_eq_some h.distinct).mpr ⟨hw, hkey⟩)
    refine .inl ⟨k, ⟨ho, hk⟩, ?_⟩
    rw [hl]
    exact FeatureList.record_finish h.distinct hw hkey halike
  · exact .inr hl

theorem step_confirm (hs : a.step (.confirm right data pkt) = .ok a') :
    (a.processOption right data pkt).2 = a' := by
  simp only [step] at hs
  split at hs
  · simp at hs
  · next heq =>
    rw [heq]
    exact Except.ok.inj hs

theorem WellFormed.changeFeature (h : a.WellFormed) (k : Feature) :
    (a.changeFeature k.1 k.2).2.WellFormed := by
  obtain ⟨-, -, h'⟩ | heq := record_changeFeature h k
  · exact h'
  · rw [heq]
    exact h

theorem WellFormed.step {x : FeatureCall} (h : a.WellFormed) (hs : a.step x = .ok a') :
    a'.WellFormed := by
  cases x with
  | changeFeature num loc =>
    obtain rfl := Except.ok.inj hs
    exact h.changeFeature (num, loc)
  | addFeatureOptions =>
    obtain rfl := Except.ok.inj hs
    exact h.addFeatureOptions
  | confirm right data pkt =>
    obtain rfl := step_confirm hs
    exact h.processOption
  | context ctx =>
    obtain rfl := Except.ok.inj hs
    exact ⟨h.distinct, h.used, h.small⟩

/-- The records have the packets from which on their features can be confirmed. -/
def Follows (a : FeatureAgent) (since : Feature → Option ℕ) : Prop :=
  ∀ k r q, a.list.record k = some r → since k = some q → r.seqNum = q

theorem Follows.step {x : FeatureCall} (hf : a.Follows since) (h : a.WellFormed) (ht : a.Tidy x)
    (hs : a.step x = .ok a') : a'.Follows (recordSince a x a' since) := by
  intro k r q hr hq
  cases x with
  | changeFeature num loc =>
    obtain rfl := Except.ok.inj hs
    unfold recordSince at hq
    dsimp only at hq
    obtain ⟨hrec, htrue, -⟩ | heq := record_changeFeature h (num, loc)
    · rw [if_pos htrue] at hq
      rw [hrec] at hr
      by_cases hk : k = (num, loc)
      · subst hk
        rw [Function.update_self] at hr hq
        obtain rfl := Option.some.inj hr
        dsimp only
        split at hq
        · next hc =>
          rw [if_pos hc]
          exact Option.some.inj hq
        · simp at hq
      · rw [Function.update_of_ne hk] at hr hq
        exact hf k r q hr hq
    · rw [heq] at hr hq
      exact hf k r q hr hq
  | addFeatureOptions =>
    obtain rfl := Except.ok.inj hs
    unfold recordSince at hq
    dsimp only at hq
    rw [record_addFeatureOptions h] at hr
    obtain ⟨r', hr', rfl⟩ := Option.map_eq_some_iff.mp hr
    unfold FeatureContext.announced
    by_cases hdue : a.ctx.Due r' = true ∧ (a.ctx.change k).isSome
    · rw [if_pos ((mem_announces h).mpr ⟨r', hr', hdue⟩)] at hq
      rw [if_pos hdue]
      exact Option.some.inj hq
    · have hnot : k ∉ a.announces := by
        intro hk
        obtain ⟨r'', hr'', hdue'⟩ := (mem_announces h).mp hk
        obtain rfl : r' = r'' := Option.some.inj (hr'.symm.trans hr'')
        exact hdue hdue'
      rw [if_neg hnot] at hq
      rw [if_neg hdue]
      exact hf k r' q hr' hq
  | confirm right data pkt =>
    obtain rfl := step_confirm hs
    obtain ⟨k', -, hrec⟩ | hl := record_confirm h ht
    · rw [hrec] at hr
      by_cases hk : k = k'
      · subst hk
        simp at hr
      · rw [Function.update_of_ne hk] at hr
        exact hf k r q hr hq
    · rw [hl] at hr
      exact hf k r q hr hq
  | context ctx =>
    obtain rfl := Except.ok.inj hs
    exact hf k r q hr hq

/-- A feature that still has to be announced stays so until the next packet, unless its own
negotiation ends. -/
theorem first_kept {x : FeatureCall} (h : a.WellFormed) (ht : a.Tidy x) (hs : a.step x = .ok a')
    (hx : x ≠ .addFeatureOptions) (hfin : ¬a.Finishes k x)
    (hr : ∃ q, a.list.record k = some ⟨q, true⟩) : ∃ q, a'.list.record k = some ⟨q, true⟩ := by
  cases x with
  | changeFeature num loc =>
    obtain rfl := Except.ok.inj hs
    obtain ⟨hrec, -, -⟩ | heq := record_changeFeature h (num, loc)
    · rw [hrec]
      by_cases hk : k = (num, loc)
      · subst hk
        rw [Function.update_self]
        exact ⟨_, rfl⟩
      · rwa [Function.update_of_ne hk]
    · rwa [heq]
  | addFeatureOptions => exact absurd rfl hx
  | confirm right data pkt =>
    obtain rfl := step_confirm hs
    obtain ⟨k', hfin', hrec⟩ | hl := record_confirm h ht
    · rw [hrec]
      have hk : k ≠ k' := by
        rintro rfl
        exact hfin hfin'
      rwa [Function.update_of_ne hk]
    · rwa [hl]
  | context ctx =>
    obtain rfl := Except.ok.inj hs
    exact hr

theorem invariant_wellFormed : tidy.Invariant WellFormed where
  init := by
    rintro a ⟨hused, hsize⟩
    refine ⟨fun i j hi => ?_, ?_, hsize⟩
    · omega
    · omega
  step := by
    rintro a x a' h - hs
    exact h.step hs

theorem invariant_follows :
    negotiations.Invariant fun p => p.1.WellFormed ∧ p.1.Follows p.2 := by
  apply invariant_wellFormed.withHistory.under
  · rintro p ⟨-, hp⟩ k r q - hq
    rw [hp] at hq
    simp at hq
  · rintro p x p' h hf he hs
    obtain ⟨hs, hrec⟩ := (Machine.withHistory_step_iff _).mp hs
    rw [hrec]
    exact hf.step h he.2 hs

/-- What holds of an agent, and of the packets since which its features can be confirmed. -/
structure NegotiationsKept (p : FeatureAgent × (Feature → Option ℕ)) : Prop where
  distinct : ∀ i j, i < p.1.list.used → j < p.1.list.used → p.1.list.key i = p.1.list.key j → i = j
  changed : ∀ k : Feature, (p.1.changeFeature k.1 k.2).1 = true →
    (p.1.changeFeature k.1 k.2).2.list.record = Function.update p.1.list.record k
      (some ⟨if p.1.list.featureIsChanging k.1 k.2 then p.1.ctx.seqNum else 0, true⟩)
  refused : ∀ k : Feature, (p.1.changeFeature k.1 k.2).1 = false → (p.1.changeFeature k.1 k.2).2 = p.1
  announces : ∀ k : Feature, k ∈ p.1.announces ↔
    ∃ r, p.1.list.record k = some r ∧ p.1.ctx.Due r = true ∧ (p.1.ctx.change k).isSome
  announced : ∀ k : Feature, p.1.addFeatureOptions.2.list.record k =
    if k ∈ p.1.announces then some ⟨p.1.ctx.seqNum, false⟩ else p.1.list.record k
  accepted : ∀ right data pkt, (p.1.processOption right data pkt).1 = .accepted →
    ∃ k w, confirmed right data = some k ∧ p.1.list.findFeatureInList k.1 k.2 = some w ∧
      (p.1.list.AlikeFrom w → (p.1.processOption right data pkt).2.list.record =
        Function.update p.1.list.record k none)
  ignored : ∀ right data pkt, (p.1.processOption right data pkt).1 ≠ .accepted →
    (p.1.processOption right data pkt).2.list = p.1.list
  acknowledged : ∀ right data pkt k q, (p.1.processOption right data pkt).1 = .accepted →
    0 < p.1.ctx.allowMultNeg → pkt.Acks → confirmed right data = some k → p.2 k = some q →
      q ≤ pkt.ackNum
  nextPacket : ∀ k : Feature, k.1 ∈ FeatureValues.known → (p.1.changeFeature k.1 k.2).1 = true →
    ∀ ts t, tidy.Path (p.1.changeFeature k.1 k.2).2 ts t →
      (∀ e ∈ ts, e.2 ≠ .addFeatureOptions ∧ ¬e.1.Finishes k e.2) → k ∈ t.announces

theorem announces_of_path {ts : List (FeatureAgent × FeatureCall)} {t : FeatureAgent}
    (h : a.WellFormed) (hp : tidy.Path a ts t)
    (hts : ∀ e ∈ ts, e.2 ≠ .addFeatureOptions ∧ ¬e.1.Finishes k e.2)
    (hknown : k.1 ∈ FeatureValues.known) (hr : ∃ q, a.list.record k = some ⟨q, true⟩) :
    k ∈ t.announces := by
  induction hp with
  | nil a =>
    obtain ⟨q, hq⟩ := hr
    obtain ⟨o, ho⟩ := a.ctx.exists_change hknown
    exact (mem_announces h).mpr ⟨_, hq, by simp [FeatureContext.Due], by rw [ho]; rfl⟩
  | @cons a a' t x ts he hs _ ih =>
    obtain ⟨hx, hfin⟩ := hts _ List.mem_cons_self
    apply ih (WellFormed.step h hs)
    · exact fun e he => hts e (List.mem_cons_of_mem _ he)
    · exact first_kept h he.2 hs hx hfin hr

/-- An agent that has not started any negotiation. -/
def fresh : FeatureAgent where
  list := ⟨fun _ => 0, fun _ => .locLocal, fun _ => 0, fun _ => false, 0⟩
  ctx := {}

instance (a : FeatureAgent) (x : FeatureCall) : Decidable (machine.Enabled a x) :=
  inferInstanceAs (Decidable True)

end FeatureAgent

end Ns2XPass
