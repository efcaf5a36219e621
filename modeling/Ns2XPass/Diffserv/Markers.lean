import Mathlib.Algebra.Order.Field.Rat
import Ns2XPass.Library.FluidBucket
import Ns2XPass.Library.Machine

/-! # Diffserv markers

A marker meters a packet, which fills its buckets, and polices it, which takes
the packet out of a bucket and says which of the code points of the policer it
gets. Every marker keeps to its profile in every window of time, and the token
bucket marks no packet down that keeps to it.
-/

namespace Ns2XPass

namespace Diffserv

inductive PolicerType
  | null | tsw2cm | tsw3cm | tokenBucket | srTCM | trTCM | sfd | ew | dewp
  deriving DecidableEq

inductive MeterType
  | null | tswTagger | tokenBucket | srTCM | trTCM | sfdTagger | ewTagger | dewpTagger
  deriving DecidableEq

structure PolicyTableEntry where
  sourceNode : ℤ
  destNode : ℤ
  policyIndex : ℕ
  policer : PolicerType
  meter : MeterType
  codePt : ℤ
  cir : ℚ
  cbs : ℚ
  cBucket : ℚ
  ebs : ℚ
  eBucket : ℚ
  pir : ℚ
  pbs : ℚ
  pBucket : ℚ
  arrivalTime : ℚ
  avgRate : ℚ
  winLen : ℚ

structure PolicerTableEntry where
  policer : PolicerType
  initialCodePt : ℤ
  downgrade1 : ℤ
  downgrade2 : ℤ
  policyIndex : ℕ

/-- The field of a policer whose code point a packet gets. -/
inductive Marking
  | initial | downgrade1 | downgrade2
  deriving DecidableEq

def PolicerTableEntry.codePoint (policer : PolicerTableEntry) : Marking → ℤ
  | .initial => policer.initialCodePt
  | .downgrade1 => policer.downgrade1
  | .downgrade2 => policer.downgrade2

/-- The methods of a policy. -/
structure Marker where
  applyMeter : PolicyTableEntry → ℚ → PolicyTableEntry
  applyPolicer : PolicyTableEntry → ℤ → PolicyTableEntry × Marking

def TBPolicy : Marker where
  applyMeter policy now :=
    let tokenBytes := policy.cir * (now - policy.arrivalTime)
    { policy with
      cBucket :=
        if policy.cBucket + tokenBytes ≤ policy.cbs then policy.cBucket + tokenBytes
        else policy.cbs
      arrivalTime := now }
  applyPolicer policy size :=
    if 0 ≤ policy.cBucket - size then
      ({ policy with cBucket := policy.cBucket - size }, .initial)
    else (policy, .downgrade1)

def SRTCMPolicy : Marker where
  applyMeter policy now :=
    let tokenBytes := policy.cir * (now - policy.arrivalTime)
    if policy.cBucket + tokenBytes ≤ policy.cbs then
      { policy with cBucket := policy.cBucket + tokenBytes, arrivalTime := now }
    else
      let tokenBytes := tokenBytes - (policy.cbs - policy.cBucket)
      { policy with
        cBucket := policy.cbs
        eBucket :=
          if policy.eBucket + tokenBytes ≤ policy.ebs then policy.eBucket + tokenBytes
          else policy.ebs
        arrivalTime := now }
  applyPolicer policy size :=
    if 0 ≤ policy.cBucket - size then
      ({ policy with cBucket := policy.cBucket - size }, .initial)
    else if 0 ≤ policy.eBucket - size then
      ({ policy with eBucket := policy.eBucket - size }, .downgrade1)
    else (policy, .downgrade2)

def TRTCMPolicy : Marker where
  applyMeter policy now :=
    let tokenBytes := policy.cir * (now - policy.arrivalTime)
    let peakBytes := policy.pir * (now - policy.arrivalTime)
    { policy with
      cBucket :=
        if policy.cBucket + tokenBytes ≤ policy.cbs then policy.cBucket + tokenBytes
        else policy.cbs
      pBucket :=
        if policy.pBucket + peakBytes ≤ policy.pbs then policy.pBucket + peakBytes
        else policy.pbs
      arrivalTime := now }
  applyPolicer policy size :=
    if policy.pBucket - size < 0 then (policy, .downgrade2)
    else if policy.cBucket - size < 0 then
      ({ policy with pBucket := policy.pBucket - size }, .downgrade1)
    else
      ({ policy with cBucket := policy.cBucket - size, pBucket := policy.pBucket - size },
        .initial)

/-! ### Runs -/

structure Arrival where
  now : ℚ
  size : ℤ

structure Marked extends Arrival where
  marking : Marking

/-- The rates are not negative, and the buckets are full. -/
structure Fresh (policy : PolicyTableEntry) : Prop where
  cir : 0 ≤ policy.cir
  pir : 0 ≤ policy.pir
  cbs : 0 ≤ policy.cbs
  ebs : 0 ≤ policy.ebs
  pbs : 0 ≤ policy.pbs
  cBucket : policy.cBucket = policy.cbs
  eBucket : policy.eBucket = policy.ebs
  pBucket : policy.pBucket = policy.pbs

def Marker.mark (m : Marker) (policy : PolicyTableEntry) (a : Arrival) :
    PolicyTableEntry × Marking :=
  m.applyPolicer (m.applyMeter policy a.now) a.size

/-- Packets of positive sizes come one after the other to one policy. -/
def Marker.runs (m : Marker) : Machine PolicyTableEntry Arrival Unit where
  Init := Fresh
  Enabled policy a := policy.arrivalTime ≤ a.now ∧ 0 < a.size
  step policy a := .ok (m.mark policy a).1

/-- The runs with all packets that were marked, the latest first. -/
def Marker.markings (m : Marker) : Machine (PolicyTableEntry × List Marked) Arrival Unit :=
  m.runs.withHistory [] fun policy a _ log => ⟨a, (m.mark policy a).2⟩ :: log

/-- The times and sizes of the packets with one of some markings. -/
def taken (marks : List Marking) (log : List Marked) : List (ℚ × ℤ) :=
  (log.filter fun x => x.marking ∈ marks).map fun x => (x.now, x.size)

/-- The packets with these markings keep to a burst and a rate in every window. -/
def Within (marks : List Marking) (burst rate : ℚ) (log : List Marked) : Prop :=
  ∀ s t, s ≤ t → (Bucket.total s t (taken marks log) : ℚ) ≤ burst + rate * (t - s)

/-- Every bucket is within its size. -/
structure Filled (policy : PolicyTableEntry) : Prop where
  cBucket : 0 ≤ policy.cBucket ∧ policy.cBucket ≤ policy.cbs
  eBucket : 0 ≤ policy.eBucket ∧ policy.eBucket ≤ policy.ebs
  pBucket : 0 ≤ policy.pBucket ∧ policy.pBucket ≤ policy.pbs

variable {policy : PolicyTableEntry} {a : Arrival} {m : Marking} {log : List Marked}
  {marks : List Marking}

theorem taken_cons_of_mem (h : m ∈ marks) :
    taken marks (⟨a, m⟩ :: log) = (a.now, a.size) :: taken marks log := by
  simp [taken, h]

theorem taken_cons_of_not_mem (h : m ∉ marks) :
    taken marks (⟨a, m⟩ :: log) = taken marks log := by
  simp [taken, h]

open Fluid

theorem conforms_taken {rate cap level : ℚ}
    (h : Conforms rate cap a.now level ((a.now, a.size) :: taken marks log)) (hm : m ∈ marks) :
    Conforms rate cap a.now level (taken marks (⟨a, m⟩ :: log)) := by
  rw [taken_cons_of_mem hm]; exact h

theorem conforms_passed {rate cap level : ℚ}
    (h : Conforms rate cap a.now level (taken marks log)) (hm : m ∉ marks) :
    Conforms rate cap a.now level (taken marks (⟨a, m⟩ :: log)) := by
  rw [taken_cons_of_not_mem hm]; exact h

/-- The committed bucket of the policy conforms with the packets of some markings. -/
def CConforms (marks : List Marking) (p : PolicyTableEntry × List Marked) : Prop :=
  Conforms p.1.cir p.1.cbs p.1.arrivalTime p.1.cBucket (taken marks p.2)

/-- Both buckets together. -/
def CEConforms (marks : List Marking) (p : PolicyTableEntry × List Marked) : Prop :=
  Conforms p.1.cir (p.1.cbs + p.1.ebs) p.1.arrivalTime (p.1.cBucket + p.1.eBucket)
    (taken marks p.2)

def PConforms (marks : List Marking) (p : PolicyTableEntry × List Marked) : Prop :=
  Conforms p.1.pir p.1.pbs p.1.arrivalTime p.1.pBucket (taken marks p.2)

/-- What holds of a policy between packets. -/
structure Sound (policy : PolicyTableEntry) : Prop extends Filled policy where
  cir : 0 ≤ policy.cir
  pir : 0 ≤ policy.pir

theorem Fresh.sound (h : Fresh policy) : Sound policy where
  cBucket := ⟨h.cBucket ▸ h.cbs, h.cBucket.le⟩
  eBucket := ⟨h.eBucket ▸ h.ebs, h.eBucket.le⟩
  pBucket := ⟨h.pBucket ▸ h.pbs, h.pBucket.le⟩
  cir := h.cir
  pir := h.pir

/-! ### The token bucket -/

/-- The committed bucket when a packet arrives. -/
def cFilled (policy : PolicyTableEntry) (a : Arrival) : ℚ :=
  fill policy.cir policy.cbs (a.now - policy.arrivalTime) policy.cBucket

theorem TBPolicy_mark (policy : PolicyTableEntry) (a : Arrival) :
    TBPolicy.mark policy a =
      if (a.size : ℚ) ≤ cFilled policy a then
        ({ policy with cBucket := cFilled policy a - a.size, arrivalTime := a.now }, .initial)
      else ({ policy with cBucket := cFilled policy a, arrivalTime := a.now }, .downgrade1) := by
  simp only [← sub_nonneg (b := (a.size : ℚ))]
  rfl

/-- All markings of a packet. -/
def anyMark : List Marking := [.initial, .downgrade1, .downgrade2]

theorem mem_anyMark (mark : Marking) : mark ∈ anyMark := by cases mark <;> decide

/-- A stream within a profile has been so before its latest packet. -/
theorem Within.tail {burst rate : ℚ} (ha : 0 ≤ a.size)
    (h : Within marks burst rate (⟨a, m⟩ :: log)) : Within marks burst rate log := by
  intro s t hst
  have hb := h s t hst
  by_cases hm : m ∈ marks
  · rw [taken_cons_of_mem hm] at hb
    by_cases hmem : s ≤ a.now ∧ a.now ≤ t
    · have hpos : (0 : ℚ) ≤ a.size := by exact_mod_cast ha
      rw [Bucket.total_cons_of_mem hmem] at hb
      push_cast at hb
      linarith
    · rwa [Bucket.total_cons_of_not_mem hmem] at hb
  · rwa [taken_cons_of_not_mem hm] at hb

/-- What the token bucket keeps. -/
structure TBHolds (p : PolicyTableEntry × List Marked) : Prop where
  sound : Sound p.1
  committed : CConforms [.initial] p
  spared : Within anyMark p.1.cbs p.1.cir p.2 → (∀ x ∈ p.2, x.marking = .initial) ∧
    Keeps p.1.cir p.1.cbs p.1.arrivalTime p.1.cBucket (taken anyMark p.2)

theorem TBHolds.start (h : Fresh policy) : TBHolds (policy, []) where
  sound := h.sound
  committed := .start h.cir (h.cBucket ▸ h.cbs) h.cBucket.le
  spared _ := ⟨by simp, h.cBucket ▸ .start⟩

theorem TBHolds.mark (h : TBHolds (policy, log)) (ha : policy.arrivalTime ≤ a.now)
    (hs : 0 < a.size) :
    TBHolds ((TBPolicy.mark policy a).1, ⟨a, (TBPolicy.mark policy a).2⟩ :: log) := by
  obtain ⟨hsound, hc, hspare⟩ := h
  have hmet := Conforms.refill hsound.cir hc ha
  change Conforms _ _ _ (cFilled policy a) _ at hmet
  rw [TBPolicy_mark]
  split
  · next hle =>
    have hspent := hmet.spend hsound.cir hs.le hle
    refine ⟨⟨⟨⟨hspent.nonneg, hspent.le_cap⟩, hsound.eBucket, hsound.pBucket⟩, hsound.cir,
      hsound.pir⟩, ?_, fun hw => ?_⟩
    · exact conforms_taken hspent (by simp)
    · obtain ⟨hall, hkeep⟩ := hspare (Within.tail hs.le hw)
      refine ⟨List.forall_mem_cons.mpr ⟨rfl, hall⟩, ?_⟩
      rw [taken_cons_of_mem (mem_anyMark _)]
      exact (hkeep.refill hsound.cBucket.2 ha).spend
  · next hgt =>
    refine ⟨⟨⟨⟨hmet.nonneg, hmet.le_cap⟩, hsound.eBucket, hsound.pBucket⟩, hsound.cir,
      hsound.pir⟩, ?_, fun hw => ?_⟩
    · exact conforms_passed hmet (by simp)
    · -- a stream within the profile finds enough in the bucket
      obtain ⟨_, hkeep⟩ := hspare (Within.tail hs.le hw)
      unfold Within at hw
      rw [taken_cons_of_mem (mem_anyMark _)] at hw
      exact absurd ((hkeep.refill hsound.cBucket.2 ha).enough hw) hgt

/-! ### Three colours at a single rate -/

/-- The excess bucket when a packet arrives. -/
def eFilled (policy : PolicyTableEntry) (a : Arrival) : ℚ :=
  (SRTCMPolicy.applyMeter policy a.now).eBucket

theorem SRTCMPolicy_meter (policy : PolicyTableEntry) (a : Arrival) :
    SRTCMPolicy.applyMeter policy a.now = { policy with
      cBucket := cFilled policy a, eBucket := eFilled policy a, arrivalTime := a.now } := by
  unfold eFilled cFilled fill SRTCMPolicy
  dsimp only
  split <;> rfl

theorem SRTCMPolicy_mark (policy : PolicyTableEntry) (a : Arrival) :
    SRTCMPolicy.mark policy a =
      if (a.size : ℚ) ≤ cFilled policy a then
        ({ policy with
            cBucket := cFilled policy a - a.size
            eBucket := eFilled policy a
            arrivalTime := a.now }, .initial)
      else if (a.size : ℚ) ≤ eFilled policy a then
        ({ policy with
            cBucket := cFilled policy a
            eBucket := eFilled policy a - a.size
            arrivalTime := a.now }, .downgrade1)
      else
        ({ policy with
            cBucket := cFilled policy a
            eBucket := eFilled policy a
            arrivalTime := a.now }, .downgrade2) := by
  unfold Marker.mark
  rw [SRTCMPolicy_meter]
  simp only [← sub_nonneg (b := (a.size : ℚ))]
  rfl

/-- What spills over from the committed bucket is all that the excess bucket gets. -/
theorem eFilled_mem (h : Sound policy) (ha : policy.arrivalTime ≤ a.now) :
    policy.eBucket ≤ eFilled policy a ∧ eFilled policy a ≤ policy.ebs ∧
      cFilled policy a + eFilled policy a ≤
        policy.cBucket + policy.eBucket + policy.cir * (a.now - policy.arrivalTime) := by
  have hdt := mul_nonneg h.cir (sub_nonneg.mpr ha)
  obtain ⟨_, hc⟩ := h.cBucket
  obtain ⟨_, he⟩ := h.eBucket
  unfold eFilled cFilled fill SRTCMPolicy
  dsimp only
  split
  · exact ⟨le_rfl, he, by linarith⟩
  · dsimp only
    split
    · exact ⟨by linarith, by linarith, by linarith⟩
    · exact ⟨he, le_rfl, by linarith⟩

/-- What the marker with a single rate keeps. -/
structure SRTCMHolds (p : PolicyTableEntry × List Marked) : Prop where
  sound : Sound p.1
  committed : CConforms [.initial] p
  both : CEConforms [.initial, .downgrade1] p

theorem SRTCMHolds.start (h : Fresh policy) : SRTCMHolds (policy, []) where
  sound := h.sound
  committed := .start h.cir (h.cBucket ▸ h.cbs) h.cBucket.le
  both := .start h.cir (by rw [h.cBucket, h.eBucket]; exact add_nonneg h.cbs h.ebs)
    (by rw [h.cBucket, h.eBucket])

theorem SRTCMHolds.mark (h : SRTCMHolds (policy, log)) (ha : policy.arrivalTime ≤ a.now)
    (hs : 0 < a.size) :
    SRTCMHolds ((SRTCMPolicy.mark policy a).1, ⟨a, (SRTCMPolicy.mark policy a).2⟩ :: log) := by
  obtain ⟨hsound, hc, hce⟩ := h
  obtain ⟨hge, hle, hsum⟩ := eFilled_mem hsound ha
  have hmet := Conforms.refill hsound.cir hc ha
  change Conforms _ _ _ (cFilled policy a) _ at hmet
  have he0 := hsound.eBucket.1.trans hge
  have hboth : Conforms policy.cir (policy.cbs + policy.ebs) a.now
      (cFilled policy a + eFilled policy a) (taken [.initial, .downgrade1] log) :=
    hce.wait hsound.cir ha (add_nonneg hmet.nonneg he0) (add_le_add hmet.le_cap hle) hsum
  have hpos : (0 : ℚ) < a.size := by exact_mod_cast hs
  rw [SRTCMPolicy_mark]
  split
  · next hgreen =>
    have hspent := hmet.spend hsound.cir hs.le hgreen
    have hgone := hboth.spend hsound.cir hs.le (show (a.size : ℚ) ≤ _ by linarith)
    rw [← sub_add_eq_add_sub] at hgone
    exact ⟨⟨⟨⟨hspent.nonneg, hspent.le_cap⟩, ⟨he0, hle⟩, hsound.pBucket⟩, hsound.cir,
      hsound.pir⟩, conforms_taken hspent (by simp), conforms_taken hgone (by simp)⟩
  split
  · next hyellow =>
    have hgone := hboth.spend hsound.cir hs.le
      (show (a.size : ℚ) ≤ _ by linarith [hmet.nonneg])
    rw [add_sub_assoc] at hgone
    exact ⟨⟨⟨⟨hmet.nonneg, hmet.le_cap⟩, ⟨sub_nonneg.mpr hyellow, by dsimp only; linarith⟩,
      hsound.pBucket⟩, hsound.cir, hsound.pir⟩, conforms_passed hmet (by simp),
      conforms_taken hgone (by simp)⟩
  · exact ⟨⟨⟨⟨hmet.nonneg, hmet.le_cap⟩, ⟨he0, hle⟩, hsound.pBucket⟩, hsound.cir, hsound.pir⟩,
      conforms_passed hmet (by simp), conforms_passed hboth (by simp)⟩

/-! ### Three colours at two rates -/

/-- The peak bucket when a packet arrives. -/
def pFilled (policy : PolicyTableEntry) (a : Arrival) : ℚ :=
  fill policy.pir policy.pbs (a.now - policy.arrivalTime) policy.pBucket

theorem TRTCMPolicy_mark (policy : PolicyTableEntry) (a : Arrival) :
    TRTCMPolicy.mark policy a =
      if pFilled policy a < a.size then
        ({ policy with
            cBucket := cFilled policy a
            pBucket := pFilled policy a
            arrivalTime := a.now }, .downgrade2)
      else if cFilled policy a < a.size then
        ({ policy with
            cBucket := cFilled policy a
            pBucket := pFilled policy a - a.size
            arrivalTime := a.now }, .downgrade1)
      else
        ({ policy with
            cBucket := cFilled policy a - a.size
            pBucket := pFilled policy a - a.size
            arrivalTime := a.now }, .initial) := by
  simp only [← sub_neg (b := (a.size : ℚ))]
  rfl

/-- What the marker with two rates keeps. -/
structure TRTCMHolds (p : PolicyTableEntry × List Marked) : Prop where
  sound : Sound p.1
  committed : CConforms [.initial] p
  peak : PConforms [.initial, .downgrade1] p

theorem TRTCMHolds.start (h : Fresh policy) : TRTCMHolds (policy, []) where
  sound := h.sound
  committed := .start h.cir (h.cBucket ▸ h.cbs) h.cBucket.le
  peak := .start h.pir (h.pBucket ▸ h.pbs) h.pBucket.le

theorem TRTCMHolds.mark (h : TRTCMHolds (policy, log)) (ha : policy.arrivalTime ≤ a.now)
    (hs : 0 < a.size) :
    TRTCMHolds ((TRTCMPolicy.mark policy a).1, ⟨a, (TRTCMPolicy.mark policy a).2⟩ :: log) := by
  obtain ⟨hsound, hc, hp⟩ := h
  have hcmet := Conforms.refill hsound.cir hc ha
  have hpmet := Conforms.refill hsound.pir hp ha
  change Conforms _ _ _ (cFilled policy a) _ at hcmet
  change Conforms _ _ _ (pFilled policy a) _ at hpmet
  rw [TRTCMPolicy_mark]
  split
  · exact ⟨⟨⟨⟨hcmet.nonneg, hcmet.le_cap⟩, hsound.eBucket, ⟨hpmet.nonneg, hpmet.le_cap⟩⟩,
      hsound.cir, hsound.pir⟩, conforms_passed hcmet (by simp),
      conforms_passed hpmet (by simp)⟩
  · next hpeak =>
    have hpspent := hpmet.spend hsound.pir hs.le (not_lt.mp hpeak)
    split
    · exact ⟨⟨⟨⟨hcmet.nonneg, hcmet.le_cap⟩, hsound.eBucket,
        ⟨hpspent.nonneg, hpspent.le_cap⟩⟩, hsound.cir, hsound.pir⟩,
        conforms_passed hcmet (by simp), conforms_taken hpspent (by simp)⟩
    · next hcom =>
      have hcspent := hcmet.spend hsound.cir hs.le (not_lt.mp hcom)
      exact ⟨⟨⟨⟨hcspent.nonneg, hcspent.le_cap⟩, hsound.eBucket,
        ⟨hpspent.nonneg, hpspent.le_cap⟩⟩, hsound.cir, hsound.pir⟩,
        conforms_taken hcspent (by simp), conforms_taken hpspent (by simp)⟩

/-! ### All runs -/

variable {p : PolicyTableEntry × List Marked}

/-- What holds at the start and is kept by every packet holds in every run of a marker. -/
theorem Marker.markings_invariant {M : Marker} {I : PolicyTableEntry × List Marked → Prop}
    (start : ∀ policy, Fresh policy → I (policy, []))
    (mark : ∀ policy log a, I (policy, log) → policy.arrivalTime ≤ a.now → 0 < a.size →
      I ((M.mark policy a).1, ⟨a, (M.mark policy a).2⟩ :: log)) :
    M.markings.Invariant I where
  init := by
    rintro ⟨policy, log⟩ ⟨hfresh, rfl⟩
    exact start policy hfresh
  step := by
    rintro ⟨policy, log⟩ a ⟨policy', log'⟩ h ⟨ha, hs⟩ hstep
    obtain ⟨hp, hl⟩ := (Machine.withHistory_step_iff []).mp hstep
    obtain rfl := Except.ok.inj hp
    obtain rfl : log' = _ := hl
    exact mark policy log a h ha hs

theorem tb_holds (h : TBPolicy.markings.Reachable p) : TBHolds p :=
  (Marker.markings_invariant (fun _ => .start) fun _ _ _ h => h.mark).reachable h

theorem srtcm_holds (h : SRTCMPolicy.markings.Reachable p) : SRTCMHolds p :=
  (Marker.markings_invariant (fun _ => .start) fun _ _ _ h => h.mark).reachable h

theorem trtcm_holds (h : TRTCMPolicy.markings.Reachable p) : TRTCMHolds p :=
  (Marker.markings_invariant (fun _ => .start) fun _ _ _ h => h.mark).reachable h

/-- In every run, the buckets stay within their sizes and each marking keeps to its profile in
every window. The token bucket marks nothing down in a run whose packets keep to its profile. -/
theorem markers_conform :
    (∀ p, TBPolicy.markings.Reachable p → Filled p.1 ∧ Within [.initial] p.1.cbs p.1.cir p.2 ∧
      (Within anyMark p.1.cbs p.1.cir p.2 → ∀ x ∈ p.2, x.marking = .initial)) ∧
    (∀ p, SRTCMPolicy.markings.Reachable p → Filled p.1 ∧
      Within [.initial] p.1.cbs p.1.cir p.2 ∧
      Within [.initial, .downgrade1] (p.1.cbs + p.1.ebs) p.1.cir p.2) ∧
    (∀ p, TRTCMPolicy.markings.Reachable p → Filled p.1 ∧
      Within [.initial] p.1.cbs p.1.cir p.2 ∧
      Within [.initial, .downgrade1] p.1.pbs p.1.pir p.2) := by
  refine ⟨fun p hp => ?_, fun p hp => ?_, fun p hp => ?_⟩
  · have h := tb_holds hp
    exact ⟨h.sound.1, h.committed.window, fun hw => (h.spared hw).1⟩
  · have h := srtcm_holds hp
    exact ⟨h.sound.1, h.committed.window, h.both.window⟩
  · have h := trtcm_holds hp
    exact ⟨h.sound.1, h.committed.window, h.peak.window⟩

/-- A policy with a committed burst of 1500 bytes at 1000 bytes a second. -/
def burstPolicy : PolicyTableEntry where
  sourceNode := 0
  destNode := 1
  policyIndex := 3
  policer := .tokenBucket
  meter := .tokenBucket
  codePt := 10
  cir := 1000
  cbs := 1500
  cBucket := 1500
  ebs := 0
  eBucket := 0
  pir := 0
  pbs := 0
  pBucket := 0
  arrivalTime := 0
  avgRate := 1000
  winLen := 1

theorem markers_conform_burst : ∃ p, TBPolicy.markings.Reachable p ∧ p.1.cbs = 1500 ∧
    p.1.cir = 1000 ∧ p.2.map Marked.marking = [.downgrade1, .initial] ∧
    Within [.initial] p.1.cbs p.1.cir p.2 := by
  have hfresh : Fresh burstPolicy := by constructor <;> decide
  have h₀ : TBPolicy.markings.Reachable (burstPolicy, []) := .init ⟨hfresh, rfl⟩
  have h₁ := h₀.step (x := ⟨1, 1000⟩) ⟨by decide +kernel, by decide⟩ rfl
  have h₂ := h₁.step (x := ⟨5 / 4, 1000⟩) ⟨by decide +kernel, by decide⟩ rfl
  exact ⟨_, h₂, by decide +kernel, by decide +kernel, by decide +kernel,
    (markers_conform.1 _ h₂).2.1⟩

end Diffserv

end Ns2XPass
