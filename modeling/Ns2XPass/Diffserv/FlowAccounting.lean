import Ns2XPass.Diffserv.FlowTable
import Ns2XPass.Library.Machine

/-! # The accounts of the SFD policy

In every run the flow table is a list with one entry for each flow that it knows,
and each packet finds the entry of its flow. The bytes of a flow are those since
its last silence in every run in which the end of each silence finds the entry of
the flow removed; this depends on the packets of other flows.
-/

namespace Ns2XPass

namespace Diffserv

variable {x : FlowPacket} {l : List Usage} {u v : Usage}

/-! ### One packet on the list -/

theorem mem_meter (hd : (l.map Usage.fid).Nodup) (h : v ∈ meter x l) :
    v.fid = x.flowid ∧ v.lastUpdate = x.now ∧
        ((∃ u ∈ l, u.fid = x.flowid ∧ v.bytesSent = wrap32 (u.bytesSent + x.size)) ∨
          (∀ u ∈ l, u.fid ≠ x.flowid) ∧ v.bytesSent = x.size) ∨
      v.fid ≠ x.flowid ∧ v ∈ l := by
  induction l with
  | nil =>
    obtain rfl := List.mem_singleton.mp h
    exact .inl ⟨rfl, rfl, .inr ⟨by simp, rfl⟩⟩
  | cons e l ih =>
    obtain ⟨hne, hd⟩ := List.nodup_cons.mp hd
    have hrest : v ∈ meter x l → e.fid ≠ x.flowid → (v.fid = x.flowid ∧ v.lastUpdate = x.now ∧
        ((∃ u ∈ e :: l, u.fid = x.flowid ∧ v.bytesSent = wrap32 (u.bytesSent + x.size)) ∨
          (∀ u ∈ e :: l, u.fid ≠ x.flowid) ∧ v.bytesSent = x.size) ∨
        v.fid ≠ x.flowid ∧ v ∈ e :: l) := by
      intro hm he
      rcases ih hd hm with ⟨hv, hl, ⟨u, hu, hb⟩ | ⟨hno, hb⟩⟩ | ⟨hv, hl⟩
      · exact .inl ⟨hv, hl, .inl ⟨u, List.mem_cons_of_mem e hu, hb⟩⟩
      · exact .inl ⟨hv, hl, .inr ⟨List.forall_mem_cons.mpr ⟨he, hno⟩, hb⟩⟩
      · exact .inr ⟨hv, List.mem_cons_of_mem e hl⟩
    unfold meter at h
    split at h
    · next he =>
      rcases List.mem_cons.mp h with rfl | hm
      · exact .inl ⟨he, rfl, .inl ⟨e, List.mem_cons_self, he, rfl⟩⟩
      · exact .inr ⟨fun hv => hne (List.mem_map.mpr ⟨v, hm, hv.trans he.symm⟩),
          List.mem_cons_of_mem e hm⟩
    · next he =>
      split at h
      · exact hrest h he
      · rcases List.mem_cons.mp h with rfl | hm
        · exact .inr ⟨he, List.mem_cons_self⟩
        · exact hrest hm he

theorem exists_mem_meter (x : FlowPacket) (l : List Usage) : ∃ v ∈ meter x l, v.fid = x.flowid := by
  induction l with
  | nil => exact ⟨_, List.mem_singleton.mpr rfl, rfl⟩
  | cons e l ih =>
    obtain ⟨v, hv, he⟩ := ih
    unfold meter
    split
    · next hf => exact ⟨_, List.mem_cons_self, hf⟩
    split
    · exact ⟨v, hv, he⟩
    · exact ⟨v, List.mem_cons_of_mem e hv, he⟩

theorem meter_nodup (hd : (l.map Usage.fid).Nodup) : ((meter x l).map Usage.fid).Nodup := by
  induction l with
  | nil => exact List.nodup_singleton _
  | cons e l ih =>
    obtain ⟨hne, hd⟩ := List.nodup_cons.mp hd
    unfold meter
    split
    · exact List.nodup_cons.mpr ⟨hne, hd⟩
    · next he =>
      split
      · exact ih hd
      · refine List.nodup_cons.mpr ⟨fun hm => ?_, ih hd⟩
        obtain ⟨v, hv, hf⟩ := List.mem_map.mp hm
        rcases mem_meter hd hv with ⟨hx, _⟩ | ⟨_, hl⟩
        · exact he (hf ▸ hx)
        · exact hne (List.mem_map.mpr ⟨v, hl, hf⟩)

/-- Only entries that have not been used for a while are removed. -/
theorem expired_of_not_mem_meter (hu : u ∈ l) (hne : u.fid ≠ x.flowid) (hm : u ∉ meter x l) :
    u.lastUpdate + flowTimeOut < x.now := by
  induction l with
  | nil => exact absurd hu List.not_mem_nil
  | cons e l ih =>
    unfold meter at hm
    rcases List.mem_cons.mp hu with rfl | hu
    · rw [if_neg hne] at hm
      split at hm
      · assumption
      · exact absurd List.mem_cons_self hm
    · split at hm
      · exact absurd (List.mem_cons_of_mem _ hu) hm
      split at hm
      · exact ih hu hm
      · exact ih hu fun hm' => hm (List.mem_cons_of_mem e hm')

namespace SFDPolicy

variable {s : SFDPolicy} {as : List ℕ}

/-- A packet whose flow is in the list is policed by its entry, and only the counter of this
may change. -/
theorem Proper.applyPolicer (h : s.Proper as) (hx : ∃ a ∈ as, (s.usage a).fid = x.flowid) :
    ∃ a ∈ as, (s.usage a).fid = x.flowid ∧ (s.applyPolicer x).2.2 = some (s.entries a) ∧
      (s.applyPolicer x).1.Proper as ∧ (s.applyPolicer x).1.usage = s.usage := by
  obtain ⟨b, hb, hfb⟩ := hx
  have hsome : (as.find? fun a => (s.entries a).fid = x.flowid).isSome :=
    List.find?_isSome.mpr ⟨b, hb, decide_eq_true hfb⟩
  obtain ⟨a, ha⟩ := Option.isSome_iff_exists.mp hsome
  have hfid : (s.entries a).fid = x.flowid := by simpa using List.find?_some ha
  have hcount : ∀ e : FlowEntry, (police x e).1.usage = e.usage := by
    intro e
    unfold police
    split_ifs <;> rfl
  unfold SFDPolicy.applyPolicer
  rw [h.nodes_eq, ha]
  refine ⟨a, List.mem_of_find?_eq_some ha, hfid, rfl, h.setEntry _ _, ?_⟩
  funext c
  change (Function.update s.entries a (police x (s.entries a)).1 c).usage = (s.entries c).usage
  rw [Function.update_apply]
  split
  · next hc => rw [hcount, hc]
  · rfl

/-- A packet is metered and policed. -/
def mark (s : SFDPolicy) (x : FlowPacket) : Except SFDFault (SFDPolicy × ℤ × Option FlowEntry) :=
  (s.applyMeter x).map fun s => s.applyPolicer x

/-- A policy whose table is empty, whatever its memory contains. -/
def new (entries : ℕ → FlowEntry) (next : ℕ → Option ℕ) : SFDPolicy where
  entries := entries
  next := next
  head := none
  tail := none
  allocated := 0

/-- The entry by which a packet is policed has counted its flow. -/
theorem Proper.mark (h : s.Proper as) :
    ∃ s' as' code e, s.mark x = .ok (s', code, some e) ∧ s'.Proper as' ∧
      as'.map s'.usage = meter x (as.map s.usage) ∧ e.usage ∈ as'.map s'.usage ∧
      e.fid = x.flowid := by
  obtain ⟨s₁, as₁, hs₁, hp₁, hu₁⟩ := h.applyMeter (x := x)
  obtain ⟨v, hv, hf⟩ := exists_mem_meter x (as.map s.usage)
  rw [← hu₁] at hv
  obtain ⟨b, hb, rfl⟩ := List.mem_map.mp hv
  obtain ⟨a, ha, hfa, hent, hp₂, husage⟩ := hp₁.applyPolicer ⟨b, hb, hf⟩
  refine ⟨(s₁.applyPolicer x).1, as₁, (s₁.applyPolicer x).2.1, s₁.entries a, ?_, hp₂, ?_, ?_,
    hfa⟩
  · rw [SFDPolicy.mark, hs₁, ← hent]
    rfl
  · rw [husage, hu₁]
  · rw [husage]
    exact List.mem_map.mpr ⟨a, ha, rfl⟩

end SFDPolicy

/-! ### Runs -/

/-- A packet with the bytes of its flow by which it was policed, if any. -/
structure Policed extends FlowPacket where
  bytes : Option ℤ

/-- The packets of a flow, the latest first. -/
def packetsOf (f : ℤ) (log : List Policed) : List (ℚ × ℤ) :=
  (log.filter fun y => y.flowid = f).map fun y => (y.now, y.size)

def policedBytes (f : ℤ) (log : List Policed) : List (Option ℤ) :=
  (log.filter fun y => y.flowid = f).map Policed.bytes

/-- The bytes of the packets, the latest first, since the last silence. -/
def bytesSince : List (ℚ × ℤ) → ℤ
  | [] => 0
  | e :: l => e.2 + if l.head?.any fun e' => e'.1 + flowTimeOut < e.1 then 0 else bytesSince l

/-- What `bytesSince` is at each packet. -/
def counts : List (ℚ × ℤ) → List (Option ℤ)
  | [] => []
  | e :: l => some (bytesSince (e :: l)) :: counts l

def sfdPackets : Machine SFDPolicy FlowPacket SFDFault where
  Init s := ∃ entries next, s = .new entries next
  Enabled _ x := 0 ≤ x.size ∧ x.size < 2 ^ 31
  step s x := (s.mark x).map Prod.fst

def sfdLog : Machine (SFDPolicy × List Policed) FlowPacket SFDFault :=
  sfdPackets.withHistory [] fun s x _ log =>
    ⟨x, ((s.mark x).toOption.bind fun r => r.2.2).map FlowEntry.bytesSent⟩ :: log

/-- The runs whose packets come at times that do not decrease. -/
def flowRuns : Machine (SFDPolicy × List Policed) FlowPacket SFDFault :=
  sfdLog.restrict fun p x => ∀ y ∈ p.2.head?, y.now ≤ x.now

/-- The entry of the flow, if there is one, has not expired, and its count stays an `int`. -/
def Renews (f : ℤ) (s : SFDPolicy) (x : FlowPacket) : Prop :=
  x.flowid = f → ∀ u ∈ s.nodes.map s.usage, u.fid = f →
    x.now ≤ u.lastUpdate + flowTimeOut ∧ u.bytesSent + x.size < 2 ^ 31

/-- The runs in which the end of each silence of a flow finds its entry removed. -/
def renewingRuns (f : ℤ) : Machine (SFDPolicy × List Policed) FlowPacket SFDFault :=
  flowRuns.restrict fun p x => Renews f p.1 x

variable {f : ℤ} {log : List Policed} {p p' : SFDPolicy × List Policed}

theorem packetsOf_cons_of_eq {y : Policed} (h : y.flowid = f) :
    packetsOf f (y :: log) = (y.now, y.size) :: packetsOf f log := by
  simp [packetsOf, h]

theorem packetsOf_cons_of_ne {y : Policed} (h : y.flowid ≠ f) :
    packetsOf f (y :: log) = packetsOf f log := by
  simp [packetsOf, h]

theorem policedBytes_cons_of_eq {y : Policed} (h : y.flowid = f) :
    policedBytes f (y :: log) = y.bytes :: policedBytes f log := by
  simp [policedBytes, h]

theorem policedBytes_cons_of_ne {y : Policed} (h : y.flowid ≠ f) :
    policedBytes f (y :: log) = policedBytes f log := by
  simp [policedBytes, h]

/-- A flow that has sent is not the flow of an empty log. -/
theorem exists_head_of_packetsOf {e : ℚ × ℤ} (h : e ∈ (packetsOf f log).head?) :
    ∃ y, y ∈ log.head? := by
  cases log with
  | nil => simp [packetsOf] at h
  | cons y log => exact ⟨y, rfl⟩

/-- What holds in every run: the entry of a flow tells its latest packet, and a flow without an
entry has been silent for a while, or always. -/
structure Tabled (p : SFDPolicy × List Policed) (as : List ℕ) : Prop where
  proper : p.1.Proper as
  nodup : ((as.map p.1.usage).map Usage.fid).Nodup
  last : ∀ u ∈ as.map p.1.usage, ∃ e ∈ (packetsOf u.fid p.2).head?, e.1 = u.lastUpdate
  gone : ∀ g, (∀ u ∈ as.map p.1.usage, u.fid ≠ g) → ∀ e ∈ (packetsOf g p.2).head?,
    ∀ y ∈ p.2.head?, e.1 + flowTimeOut < y.now
  found : ∀ y ∈ p.2, y.bytes.isSome

/-- What holds in the runs with the condition for a flow. -/
structure Counted (f : ℤ) (p : SFDPolicy × List Policed) (as : List ℕ) : Prop where
  entry : ∀ u ∈ as.map p.1.usage, u.fid = f →
    0 ≤ u.bytesSent ∧ u.bytesSent = bytesSince (packetsOf f p.2)
  policed : policedBytes f p.2 = counts (packetsOf f p.2)

variable {as as' : List ℕ} {y : Policed}

/-- A flow that has no entry before a packet has been silent for a while when it comes. -/
theorem Tabled.silent {g : ℤ} {t : ℚ} (h : Tabled p as) (ht : ∀ y ∈ p.2.head?, y.now ≤ t)
    (hg : ∀ u ∈ as.map p.1.usage, u.fid ≠ g) :
    ∀ e ∈ (packetsOf g p.2).head?, e.1 + flowTimeOut < t := by
  intro e he
  obtain ⟨y, hy⟩ := exists_head_of_packetsOf he
  exact (h.gone g hg e he y hy).trans_le (ht y hy)

theorem Tabled.packet (h : Tabled p as) (ht : ∀ z ∈ p.2.head?, z.now ≤ y.now)
    {s' : SFDPolicy} (hp : s'.Proper as')
    (hu : as'.map s'.usage = meter y.toFlowPacket (as.map p.1.usage)) (hy : y.bytes.isSome) :
    Tabled (s', y :: p.2) as' where
  proper := hp
  nodup := hu ▸ meter_nodup h.nodup
  last := by
    intro u hm
    dsimp only at hm ⊢
    rw [hu] at hm
    rcases mem_meter h.nodup hm with ⟨hf, hl, _⟩ | ⟨hf, hm⟩
    · rw [packetsOf_cons_of_eq hf.symm]
      exact ⟨_, rfl, hl.symm⟩
    · rw [packetsOf_cons_of_ne hf.symm]
      exact h.last u hm
  gone := by
    intro g hg e he z hz
    obtain rfl : y = z := by simpa using hz
    dsimp only at hg he
    rw [hu] at hg
    have hne : y.flowid ≠ g := by
      obtain ⟨v, hv, hf⟩ := exists_mem_meter y.toFlowPacket (as.map p.1.usage)
      exact fun hyg => hg v hv (hf.trans hyg)
    rw [packetsOf_cons_of_ne hne] at he
    by_cases hold : ∃ u ∈ as.map p.1.usage, u.fid = g
    · -- the entry has been removed by this packet
      obtain ⟨u, hm, rfl⟩ := hold
      obtain ⟨e', he', hlast⟩ := h.last u hm
      obtain rfl : e' = e := Option.mem_unique he' he
      rw [hlast]
      exact expired_of_not_mem_meter hm hne.symm fun hm' => hg u hm' rfl
    · exact h.silent ht (fun u hm hf => hold ⟨u, hm, hf⟩) e he
  found := List.forall_mem_cons.mpr ⟨hy, h.found⟩

/-- The count of the entry of a packet's flow goes on, or starts again after a silence. -/
theorem Counted.counted (h : Counted x.flowid p as) (hT : Tabled p as)
    (ht : ∀ z ∈ p.2.head?, z.now ≤ x.now) (hx : 0 ≤ x.size) (hR : Renews x.flowid p.1 x)
    (hv : v ∈ meter x (as.map p.1.usage)) (hf : v.fid = x.flowid) :
    0 ≤ v.bytesSent ∧
      v.bytesSent = bytesSince ((x.now, x.size) :: packetsOf x.flowid p.2) := by
  rcases mem_meter hT.nodup hv with ⟨_, _, ⟨u, hm, hfu, hb⟩ | ⟨hno, hb⟩⟩ | ⟨hne, _⟩
  · obtain ⟨h0, hold⟩ := h.entry u hm hfu
    obtain ⟨hnow, hsmall⟩ := hR rfl u (hT.proper.nodes_eq ▸ hm) hfu
    obtain ⟨e, he, hlast⟩ := hT.last u hm
    rw [hfu, Option.mem_def] at he
    rw [wrap32_of_lt (by omega) hsmall] at hb
    have hgoes : ¬ e.1 + flowTimeOut < x.now := by rw [hlast]; exact not_lt.mpr hnow
    refine ⟨by omega, ?_⟩
    rw [bytesSince, he, Option.any_some, if_neg (by simpa using hgoes), hb, hold, add_comm]
  · refine ⟨hb ▸ hx, ?_⟩
    have hsilent := hT.silent ht hno
    rw [bytesSince, hb]
    cases he : (packetsOf x.flowid p.2).head? with
    | none =>
      rw [List.head?_eq_none_iff.mp he]
      simp [bytesSince]
    | some e =>
      have := hsilent e he
      simp [this]
  · exact absurd hf hne

theorem Counted.packet (h : Counted f p as) (hT : Tabled p as)
    (ht : ∀ z ∈ p.2.head?, z.now ≤ y.now) (hx : 0 ≤ y.size) (hR : Renews f p.1 y.toFlowPacket)
    {s' : SFDPolicy} (hu : as'.map s'.usage = meter y.toFlowPacket (as.map p.1.usage))
    (hy : ∃ v ∈ as'.map s'.usage, v.fid = y.flowid ∧ y.bytes = some v.bytesSent) :
    Counted f (s', y :: p.2) as' := by
  by_cases hf : y.flowid = f
  · subst hf
    have hcounted := fun v hv hf => h.counted hT ht hx hR (v := v) (hu ▸ hv) hf
    constructor
    · intro u hm hfu
      dsimp only at hm ⊢
      rw [packetsOf_cons_of_eq rfl]
      exact hcounted u hm hfu
    · obtain ⟨v, hv, hfv, hb⟩ := hy
      dsimp only
      rw [packetsOf_cons_of_eq rfl, policedBytes_cons_of_eq rfl, counts, h.policed, hb,
        (hcounted v hv hfv).2]
  · constructor
    · intro u hm hfu
      dsimp only at hm ⊢
      rw [hu] at hm
      rw [packetsOf_cons_of_ne hf]
      rcases mem_meter hT.nodup hm with ⟨hx, _⟩ | ⟨_, hm⟩
      · exact absurd (hx.symm.trans hfu) hf
      · exact h.entry u hm hfu
    · dsimp only
      rw [packetsOf_cons_of_ne hf, policedBytes_cons_of_ne hf, h.policed]

/-- What a step of the runs does. -/
theorem flowRuns_step (h : Tabled p as) (hs : flowRuns.step p x = .ok p') :
    ∃ as' e, p'.1.Proper as' ∧ p'.2 = ⟨x, some e.bytesSent⟩ :: p.2 ∧
      as'.map p'.1.usage = meter x (as.map p.1.usage) ∧ e ∈ as'.map p'.1.usage ∧
      e.fid = x.flowid := by
  have hs' : sfdLog.step p x = .ok p' := hs
  obtain ⟨hstep, hlog⟩ := (Machine.withHistory_step_iff _).mp hs'
  obtain ⟨s', as', code, e, hm, hp, hu, he, hf⟩ := h.proper.mark (x := x)
  have hfst : (p.1.mark x).map Prod.fst = .ok p'.1 := hstep
  rw [hm] at hfst hlog
  obtain rfl : s' = p'.1 := Except.ok.inj hfst
  exact ⟨as', e.usage, hp, hlog, hu, he, hf⟩

/-- Each packet of a run is metered and policed. -/
theorem flowRuns_succeeds (h : Tabled p as) (x : FlowPacket) : ∃ p', flowRuns.step p x = .ok p' := by
  obtain ⟨s', as', code, e, hm, _⟩ := h.proper.mark (x := x)
  have hs : sfdPackets.step p.1 x = .ok s' := by
    change (p.1.mark x).map Prod.fst = .ok s'
    rw [hm]
    rfl
  change ∃ p', (sfdPackets.step p.1 x).map _ = .ok p'
  rw [hs]
  exact ⟨_, rfl⟩

theorem flowRuns_invariant : flowRuns.Invariant fun p => ∃ as, Tabled p as where
  init := by
    rintro ⟨s, log⟩ ⟨⟨entries, next, rfl⟩, rfl⟩
    refine ⟨[], ⟨rfl, rfl, List.nodup_nil, by simp⟩, List.nodup_nil, by simp, ?_, by simp⟩
    simp [packetsOf]
  step := by
    rintro p x p' ⟨as, hT⟩ ⟨_, ht⟩ hs
    obtain ⟨as', e, hp, hlog, hu, _⟩ := flowRuns_step hT hs
    obtain ⟨s', log'⟩ := p'
    subst hlog
    exact ⟨as', hT.packet ht hp hu rfl⟩

theorem renewingRuns_invariant (f : ℤ) :
    (renewingRuns f).Invariant fun p => ∃ as, Tabled p as ∧ Counted f p as where
  init := by
    intro p hi
    obtain ⟨as, hT⟩ := flowRuns_invariant.init p hi
    obtain ⟨⟨entries, next, hnew⟩, hlog⟩ := hi
    refine ⟨[], ?_, by simp, by simp [hlog, policedBytes, packetsOf, counts]⟩
    obtain rfl : as = [] := by
      have hlinks := hT.proper.links.start_eq_head?
      rw [hnew] at hlinks
      exact List.head?_eq_none_iff.mp hlinks.symm
    exact hT
  step := by
    rintro p x p' ⟨as, hT, hC⟩ ⟨⟨hx, ht⟩, hR⟩ hs
    obtain ⟨as', e, hp, hlog, hu, he, hf⟩ := flowRuns_step hT hs
    obtain ⟨s', log'⟩ := p'
    subst hlog
    exact ⟨as', hT.packet ht hp hu rfl, hC.packet hT ht hx.1 hR hu ⟨e, he, hf, rfl⟩⟩

/-- In every run the table is a list with one entry for each flow that it knows, each packet
is metered and policed and finds the entry of its flow. The packets of a flow are policed by
the bytes that it has sent since its last silence, whatever the other flows do, in the runs
in which no expired entry of the flow is left when it sends. -/
theorem flow_table (f : ℤ) :
    (∀ p, flowRuns.Reachable p →
      (∃ as, p.1.Proper as ∧ ((as.map p.1.usage).map Usage.fid).Nodup) ∧
        (∀ y ∈ p.2, y.bytes.isSome) ∧ ∀ x, ∃ p', flowRuns.step p x = .ok p') ∧
      (∀ p, (renewingRuns f).Reachable p → policedBytes f p.2 = counts (packetsOf f p.2)) ∧
      ∀ p p', (renewingRuns f).Reachable p → (renewingRuns f).Reachable p' →
        packetsOf f p.2 = packetsOf f p'.2 → policedBytes f p.2 = policedBytes f p'.2 := by
  have hcounts : ∀ p, (renewingRuns f).Reachable p →
      policedBytes f p.2 = counts (packetsOf f p.2) := by
    intro p hp
    obtain ⟨as, _, hC⟩ := (renewingRuns_invariant f).reachable hp
    exact hC.policed
  refine ⟨?_, hcounts, ?_⟩
  · intro p hp
    obtain ⟨as, hT⟩ := flowRuns_invariant.reachable hp
    exact ⟨⟨as, hT.proper, hT.nodup⟩, hT.found, flowRuns_succeeds hT⟩
  · intro p p' hp hp' he
    rw [hcounts p hp, hcounts p' hp', he]

/-- A policy with an empty table in memory that is all zero. -/
def emptyPolicy : SFDPolicy := .new (fun _ => ⟨0, 0, 0, 0, 0, 0⟩) fun _ => none

theorem emptyPolicy_reachable : flowRuns.Reachable (emptyPolicy, []) :=
  .init ⟨⟨_, _, rfl⟩, rfl⟩

/-- A packet of 100 bytes of a flow at a time. -/
def packetOf (f : ℤ) (t : ℚ) : FlowPacket where
  now := t
  size := 100
  flowid := f
  saddr := 0
  daddr := 1
  cir := 1000
  policer := ⟨.sfd, 10, 11, 0, 0⟩
  draw := 0

instance (s : SFDPolicy) (x : FlowPacket) : Decidable (sfdPackets.Enabled s x) :=
  inferInstanceAs (Decidable (0 ≤ x.size ∧ x.size < 2 ^ 31))

instance (p : SFDPolicy × List Policed) (x : FlowPacket) : Decidable (sfdLog.Enabled p x) :=
  inferInstanceAs (Decidable (sfdPackets.Enabled p.1 x))

instance (p : SFDPolicy × List Policed) (x : FlowPacket) : Decidable (flowRuns.Enabled p x) :=
  inferInstanceAs (Decidable (sfdLog.Enabled p x ∧ ∀ y ∈ p.2.head?, y.now ≤ x.now))

instance (f : ℤ) (p : SFDPolicy × List Policed) (x : FlowPacket) :
    Decidable ((renewingRuns f).Enabled p x) :=
  inferInstanceAs (Decidable (flowRuns.Enabled p x ∧ (x.flowid = f →
    ∀ u ∈ p.1.nodes.map p.1.usage, u.fid = f →
      x.now ≤ u.lastUpdate + flowTimeOut ∧ u.bytesSent + x.size < 2 ^ 31)))

theorem flow_table_silence : ∃ p, flowRuns.Reachable p ∧ (renewingRuns 1).Reachable p ∧
    packetsOf 1 p.2 = [(10, 100), (3, 100), (0, 100)] ∧
    policedBytes 1 p.2 = [some 100, some 200, some 100] ∧
    policedBytes 1 p.2 = counts (packetsOf 1 p.2) := by
  have h₀ : (renewingRuns 1).Reachable (emptyPolicy, []) := .init ⟨⟨_, _, rfl⟩, rfl⟩
  obtain ⟨p, h, hp⟩ := h₀.exists_of_exec
    [packetOf 1 0, packetOf 1 3, packetOf 2 9, packetOf 1 10]
    (fun p => packetsOf 1 p.2 = [(10, 100), (3, 100), (0, 100)] ∧
      policedBytes 1 p.2 = [some 100, some 200, some 100]) (by decide +kernel)
  have hp := of_decide_eq_true hp
  have hflow : flowRuns.Reachable p := by
    have hr := Machine.Reachable.invariant (M := flowRuns)
    exact hr.restrict.reachable h
  exact ⟨p, hflow, h, hp.1, hp.2, (flow_table 1).2.1 p h⟩

/-- A silent flow is policed by all its bytes, unless another flow has sent in the meantime. -/
theorem silence_not_seen : ∃ p p', flowRuns.Reachable p ∧ flowRuns.Reachable p' ∧
    packetsOf 1 p.2 = [(10, 100), (0, 100)] ∧ packetsOf 1 p'.2 = [(10, 100), (0, 100)] ∧
    counts (packetsOf 1 p.2) = [some 100, some 100] ∧
    policedBytes 1 p.2 = [some 200, some 100] ∧ policedBytes 1 p'.2 = [some 100, some 100] := by
  obtain ⟨p, h, hp⟩ := emptyPolicy_reachable.exists_of_exec [packetOf 1 0, packetOf 1 10]
    (fun p => packetsOf 1 p.2 = [(10, 100), (0, 100)] ∧
      counts (packetsOf 1 p.2) = [some 100, some 100] ∧
      policedBytes 1 p.2 = [some 200, some 100]) (by decide +kernel)
  obtain ⟨p', h', hp'⟩ := emptyPolicy_reachable.exists_of_exec
    [packetOf 1 0, packetOf 2 6, packetOf 1 10]
    (fun p => packetsOf 1 p.2 = [(10, 100), (0, 100)] ∧
      policedBytes 1 p.2 = [some 100, some 100]) (by decide +kernel)
  have hp := of_decide_eq_true hp
  have hp' := of_decide_eq_true hp'
  exact ⟨p, p', h, h', hp.1, hp'.1, hp.2.1, hp.2.2, hp'.2⟩

end Diffserv

end Ns2XPass
