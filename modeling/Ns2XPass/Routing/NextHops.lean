import Mathlib.Data.List.Induction
import Mathlib.Data.List.Nodup
import Mathlib.Data.List.Perm.Basic
import Ns2XPass.Routing.DistanceVector

/-! # The next hops of a distance vector

The scan of the peers finds the least metric, and the interfaces of all peers
that report it. The next hops of a destination are these interfaces, from the
first time on that some peer reports a metric. They stay what they are when no
peer reports one any more.
-/

namespace Ns2XPass

variable {N I : Type} {cfg : DvConfig N I} {d d' : Dv N I}
  {dst nbr : N} {r : DvRoute N I} {l : List N} {nh hops : List (I × N)} {s : DvScan N I}
  {ever : N → Prop} {m : ℚ}

/-- The interfaces are distinct, the preference is not the greatest one, and the order of names is
some order. -/
structure DvConfig.Proper (cfg : DvConfig N I) : Prop where
  preference_lt : cfg.preference < rtMaxpref
  nodup : cfg.peers.Nodup
  ifs_inj : ∀ a ∈ cfg.peers, ∀ b ∈ cfg.peers, cfg.ifs a = cfg.ifs b → a = b
  names : ∀ l, (cfg.arrayNames l).Perm l

namespace Dv

/-- A peer reports a metric that is valid. -/
def Reports (cfg : DvConfig N I) (d : Dv N I) (dst nbr : N) : Prop :=
  0 ≤ d.peerMetric nbr dst ∧ d.peerMetric nbr dst < cfg.infinity

/-- The least metric that the peers of a list report. -/
structure LeastReport (cfg : DvConfig N I) (d : Dv N I) (dst : N) (l : List N) (m : ℚ) : Prop where
  nonneg : 0 ≤ m
  lt : m < cfg.infinity
  mem : ∃ nbr ∈ l, d.peerMetric nbr dst = m
  le : ∀ nbr ∈ l, d.Reports cfg dst nbr → m ≤ d.peerMetric nbr dst

theorem LeastReport.exists (h : d.LeastReport cfg dst l m) : ∃ nbr ∈ l, d.Reports cfg dst nbr := by
  obtain ⟨nbr, hmem, rfl⟩ := h.mem
  exact ⟨nbr, hmem, h.nonneg, h.lt⟩

theorem LeastReport.unique {m' : ℚ} (h : d.LeastReport cfg dst l m)
    (h' : d.LeastReport cfg dst l m') : m = m' := by
  obtain ⟨a, ha, rfl⟩ := h.mem
  obtain ⟨b, hb, rfl⟩ := h'.mem
  exact le_antisymm (h.le b hb ⟨h'.nonneg, h'.lt⟩) (h'.le a ha ⟨h.nonneg, h.lt⟩)

/-- The report of one more peer is the least one, if it is not above those before. -/
theorem LeastReport.new (hrep : d.Reports cfg dst nbr)
    (hle : ∀ a ∈ l, d.Reports cfg dst a → d.peerMetric nbr dst ≤ d.peerMetric a dst) :
    d.LeastReport cfg dst (l ++ [nbr]) (d.peerMetric nbr dst) where
  nonneg := hrep.1
  lt := hrep.2
  mem := ⟨nbr, List.mem_append_right _ (List.mem_singleton_self nbr), rfl⟩
  le a ha har := by
    rcases List.mem_append.mp ha with ha | ha
    · exact hle a ha har
    · rw [List.mem_singleton.mp ha]

/-- One more peer that does not report less leaves the least report. -/
theorem LeastReport.concat (h : d.LeastReport cfg dst l m)
    (hle : d.Reports cfg dst nbr → m ≤ d.peerMetric nbr dst) :
    d.LeastReport cfg dst (l ++ [nbr]) m where
  nonneg := h.nonneg
  lt := h.lt
  mem := by
    obtain ⟨a, ha, he⟩ := h.mem
    exact ⟨a, List.mem_append_left _ ha, he⟩
  le a ha har := by
    rcases List.mem_append.mp ha with ha | ha
    · exact h.le a ha har
    · rw [List.mem_singleton.mp ha] at har ⊢
      exact hle har

/-- The scan looks at a peer that reports a metric not above the least one so far. -/
theorem Reports.taken (hrep : d.Reports cfg dst nbr) {pref : ℤ} (hpref : cfg.preference ≤ pref)
    (hm : d.peerMetric nbr dst ≤ m) : ¬ (d.peerMetric nbr dst < 0 ∨
      cfg.infinity ≤ d.peerMetric nbr dst ∨ pref < cfg.preference ∨ m < d.peerMetric nbr dst) := by
  rintro (h₁ | h₁ | h₁ | h₁)
  · exact absurd hrep.1 (not_le.mpr h₁)
  · exact absurd hrep.2 (not_lt.mpr h₁)
  · exact absurd hpref (not_le.mpr h₁)
  · exact absurd hm (not_le.mpr h₁)

/-- The interfaces of the peers of a list that report a metric. -/
def reporting (cfg : DvConfig N I) (d : Dv N I) (dst : N) (l : List N) (m : ℚ) : List (I × N) :=
  (l.filter fun nbr => d.peerMetric nbr dst = m).map fun nbr => (cfg.ifs nbr, nbr)

theorem mem_reporting {e : I × N} :
    e ∈ reporting cfg d dst l m ↔
      e.2 ∈ l ∧ d.peerMetric e.2 dst = m ∧ e.1 = cfg.ifs e.2 := by
  unfold reporting
  simp only [List.mem_map, List.mem_filter, decide_eq_true_eq]
  constructor
  · rintro ⟨nbr, ⟨hmem, hm⟩, rfl⟩
    exact ⟨hmem, hm, rfl⟩
  · rintro ⟨hmem, hm, he⟩
    exact ⟨e.2, ⟨hmem, hm⟩, Prod.ext he.symm rfl⟩

theorem nodup_reporting (hp : cfg.Proper) :
    ((reporting cfg d dst cfg.peers m).map Prod.fst).Nodup := by
  unfold reporting
  rw [List.map_map]
  refine List.Nodup.map_on (fun a ha b hb he => ?_) (hp.nodup.filter _)
  exact hp.ifs_inj a (List.mem_of_mem_filter ha) b (List.mem_of_mem_filter hb) he

/-- All elements of an array, or one of them. -/
def Picked (cfg : DvConfig N I) (hops nh : List (I × N)) : Prop :=
  if cfg.multiPath then hops.Perm nh else ∃ e ∈ nh, hops = [e]

theorem picked_chosen (hp : cfg.Proper) (hne : nh ≠ []) : Picked cfg (chosen cfg nh) nh := by
  unfold Picked chosen
  have hperm := hp.names nh
  split_ifs
  · exact hperm
  · obtain ⟨e, rest, he⟩ := List.exists_cons_of_ne_nil (l := cfg.arrayNames nh) fun hnil =>
      hne (List.nil_perm.mp (hnil ▸ hperm))
    rw [he] at hperm
    refine ⟨e, hperm.mem_iff.mp List.mem_cons_self, ?_⟩
    rw [he]
    rfl

/-- No peer of the list reports a lower metric. -/
theorem reporting_eq_nil (h : ∀ a ∈ l, d.Reports cfg dst a → m < d.peerMetric a dst)
    (h₀ : 0 ≤ m) (hlt : m < cfg.infinity) : reporting cfg d dst l m = [] := by
  rw [List.eq_nil_iff_forall_not_mem]
  intro e he
  obtain ⟨hmem, rfl, -⟩ := mem_reporting.mp he
  exact lt_irrefl _ (h e.2 hmem ⟨h₀, hlt⟩)

theorem reporting_concat_of_ne (h : d.peerMetric nbr dst ≠ m) :
    reporting cfg d dst (l ++ [nbr]) m = reporting cfg d dst l m := by
  simp [reporting, List.filter_append, h]

theorem reporting_concat (h : d.peerMetric nbr dst = m) :
    reporting cfg d dst (l ++ [nbr]) m = reporting cfg d dst l m ++ [(cfg.ifs nbr, nbr)] := by
  simp [reporting, List.filter_append, h]

/-- A route of a destination, whatever the peers report. -/
structure Settled (cfg : DvConfig N I) (r : DvRoute N I) : Prop where
  rtpref : r.rtpref = cfg.preference
  nextHop : r.nextHop = r.nextHopPeer.map cfg.ifs
  peers : ∀ p ∈ r.nextHopPeer, p ∈ cfg.peers
  single : cfg.multiPath = false → r.nextHop.length ≤ 1
  unreached : r.nextHopPeer = [] → r.metric = rtUnreach

/-- The route of a destination that some peers report: its next hops are all those of the least
metric, or one of them. -/
structure Reaches (cfg : DvConfig N I) (d : Dv N I) (dst : N) (r : DvRoute N I) : Prop where
  least : d.LeastReport cfg dst cfg.peers r.metric
  hops : Picked cfg (r.nextHop.zip r.nextHopPeer) (reporting cfg d dst cfg.peers r.metric)

theorem Settled.refresh (h : Settled cfg r)
    (hpref : ∀ nbr dst, d.peerPref nbr dst = cfg.preference) (dst : N) :
    Settled cfg (d.refresh dst r) ∧ (d.refresh dst r).nextHop = r.nextHop ∧
      (∀ p, r.nextHopPeer.head? = some p → (d.refresh dst r).metric = d.peerMetric p dst) ∧
      (r.nextHopPeer.head? = none → (d.refresh dst r).metric = rtUnreach) := by
  unfold Dv.refresh
  cases hh : r.nextHopPeer.head? with
  | none => exact ⟨h, rfl, by simp, fun _ => h.unreached (List.head?_eq_none_iff.mp hh)⟩
  | some p =>
    refine ⟨⟨hpref p dst, h.nextHop, h.peers, h.single, fun hnil => ?_⟩, rfl, ?_, by simp⟩
    · have hnil' : r.nextHopPeer = [] := hnil
      rw [hnil'] at hh
      exact absurd hh (by simp)
    · rintro q hq
      obtain rfl := Option.some.inj hq
      rfl

/-- The route that holds the picked next hops. -/
theorem settled_withHops (hl : d.LeastReport cfg dst cfg.peers m)
    (hpick : Picked cfg hops (reporting cfg d dst cfg.peers m)) :
    Settled cfg (withHops cfg.preference m hops) ∧
      Reaches cfg d dst (withHops cfg.preference m hops) := by
  have hmem : ∀ e ∈ hops, e ∈ reporting cfg d dst cfg.peers m := by
    unfold Picked at hpick
    split_ifs at hpick
    · exact fun e he => hpick.mem_iff.mp he
    · obtain ⟨e, he, rfl⟩ := hpick
      exact fun e' he' => List.mem_singleton.mp he' ▸ he
  have hne : hops ≠ [] := by
    rintro rfl
    unfold Picked at hpick
    split_ifs at hpick
    · obtain ⟨nbr, hn, hm⟩ := hl.mem
      have hin : (cfg.ifs nbr, nbr) ∈ reporting cfg d dst cfg.peers m :=
        mem_reporting.mpr ⟨hn, hm, rfl⟩
      rw [List.nil_perm.mp hpick] at hin
      exact absurd hin List.not_mem_nil
    · obtain ⟨e, -, he⟩ := hpick
      exact absurd he (by simp)
  have hzip : (hops.map Prod.fst).zip (hops.map Prod.snd) = hops := by
    simp [List.zip_map']
  refine ⟨⟨rfl, ?_, ?_, fun hm => ?_, fun hnil => ?_⟩, ⟨hl, ?_⟩⟩
  · change hops.map Prod.fst = (hops.map Prod.snd).map cfg.ifs
    rw [List.map_map]
    apply List.map_congr_left
    exact fun e he => (mem_reporting.mp (hmem e he)).2.2
  · intro p hp
    obtain ⟨e, he, rfl⟩ := List.mem_map.mp hp
    exact (mem_reporting.mp (hmem e he)).1
  · unfold Picked at hpick
    rw [hm] at hpick
    obtain ⟨e, -, rfl⟩ := hpick
    exact le_rfl
  · exact absurd (List.map_eq_nil_iff.mp hnil) hne
  · change Picked cfg ((hops.map Prod.fst).zip (hops.map Prod.snd)) _
    rw [hzip]
    exact hpick

/-- Only the metrics of the peers count. -/
theorem Reaches.congr (h : Reaches cfg d dst r) (hm : d'.peerMetric = d.peerMetric) :
    Reaches cfg d' dst r := by
  obtain ⟨⟨h₀, hlt, hmem, hle⟩, hpick⟩ := h
  unfold Reports at hle
  unfold reporting at hpick
  rw [← hm] at hmem hle hpick
  exact ⟨⟨h₀, hlt, hmem, hle⟩, hpick⟩

theorem Reaches.nextHop_ne_nil (h : Reaches cfg d dst r) : r.nextHop ≠ [] := by
  intro hnil
  have hpick := h.hops
  rw [hnil, List.zip_nil_left] at hpick
  unfold Picked at hpick
  split_ifs at hpick
  · obtain ⟨nbr, hn, hm⟩ := h.least.mem
    have hin : (cfg.ifs nbr, nbr) ∈ reporting cfg d dst cfg.peers r.metric :=
      mem_reporting.mpr ⟨hn, hm, rfl⟩
    rw [List.nil_perm.mp hpick] at hin
    exact absurd hin List.not_mem_nil
  · obtain ⟨e, -, he⟩ := hpick
    exact absurd he (by simp)

theorem Reaches.all (h : Reaches cfg d dst r) (hs : Settled cfg r) (hp : cfg.Proper)
    (hm : cfg.multiPath = true) :
    r.nextHop.Nodup ∧ ∀ i, i ∈ r.nextHop ↔
      ∃ nbr ∈ cfg.peers, d.peerMetric nbr dst = r.metric ∧ cfg.ifs nbr = i := by
  have hpick := h.hops
  have hfst : (r.nextHop.zip r.nextHopPeer).map Prod.fst = r.nextHop := by
    rw [List.map_fst_zip]
    rw [hs.nextHop, List.length_map]
  simp only [Picked, hm, if_true] at hpick
  have hperm := hpick.map Prod.fst
  rw [hfst] at hperm
  refine ⟨hperm.nodup_iff.mpr (nodup_reporting hp), fun i => ?_⟩
  rw [hperm.mem_iff, List.mem_map]
  constructor
  · rintro ⟨e, he, rfl⟩
    obtain ⟨hmem, hme, hi⟩ := mem_reporting.mp he
    exact ⟨e.2, hmem, hme, hi.symm⟩
  · rintro ⟨nbr, hmem, hme, rfl⟩
    exact ⟨(cfg.ifs nbr, nbr), mem_reporting.mpr ⟨hmem, hme, rfl⟩, rfl⟩

theorem Reaches.one (h : Reaches cfg d dst r) (hs : Settled cfg r) (hm : cfg.multiPath = false) :
    ∃ nbr ∈ cfg.peers, d.peerMetric nbr dst = r.metric ∧ r.nextHop = [cfg.ifs nbr] := by
  have hpick := h.hops
  have hfst : (r.nextHop.zip r.nextHopPeer).map Prod.fst = r.nextHop := by
    rw [List.map_fst_zip]
    rw [hs.nextHop, List.length_map]
  simp only [Picked, hm] at hpick
  obtain ⟨e, he, hz⟩ := hpick
  obtain ⟨hmem, hme, hi⟩ := mem_reporting.mp he
  refine ⟨e.2, hmem, hme, ?_⟩
  rw [← hfst, hz, List.map_singleton, hi]

/-- What `compute-routes` does to a route. -/
structure Updated (cfg : DvConfig N I) (d : Dv N I) (dst : N) (r r' : DvRoute N I) : Prop where
  settled : Settled cfg r'
  reaches : (∃ nbr ∈ cfg.peers, d.Reports cfg dst nbr) → Reaches cfg d dst r'
  stays : (∀ nbr ∈ cfg.peers, ¬ d.Reports cfg dst nbr) → r'.nextHop = r.nextHop

theorem Updated.congr {r' : DvRoute N I} (h : Updated cfg d dst r r')
    (hm : d'.peerMetric = d.peerMetric) : Updated cfg d' dst r r' := by
  obtain ⟨hs, hr, hstays⟩ := h
  unfold Reports at hr hstays
  rw [← hm] at hr hstays
  exact ⟨hs, fun he => (hr he).congr hm, hstays⟩

/-! ### The scan -/

/-- What the scan has found in a list of peers. -/
inductive Scanned (cfg : DvConfig N I) (d : Dv N I) (dst : N) (l : List N) (s : DvScan N I) : Prop
  | none (h : ∀ nbr ∈ l, ¬ d.Reports cfg dst nbr)
      (hs : s = { pf := rtMaxpref, mt := cfg.infinity, nh := [] })
  | some (h : d.LeastReport cfg dst l s.mt) (hpf : s.pf = cfg.preference)
      (hnh : s.nh = reporting cfg d dst l s.mt)

variable [DecidableEq I]

theorem Scanned.step (h : Scanned cfg d dst l s) (hp : cfg.Proper)
    (hpref : d.peerPref nbr dst = cfg.preference) (hfresh : ∀ a ∈ l, cfg.ifs a ≠ cfg.ifs nbr) :
    Scanned cfg d dst (l ++ [nbr]) (d.scanPeer cfg dst s nbr) := by
  have hlt := hp.preference_lt
  unfold scanPeer
  dsimp only
  rw [hpref]
  by_cases hrep : d.Reports cfg dst nbr
  · cases h with
    | none h hs =>
      subst hs
      rw [if_neg (hrep.taken hlt.le hrep.2.le), if_pos (.inl hlt)]
      refine .some (.new hrep fun a ha har => absurd har (h a ha)) rfl ?_
      rw [reporting_concat rfl, reporting_eq_nil (fun a ha har => absurd har (h a ha)) hrep.1
        hrep.2]
      rfl
    | some h hpf hnh =>
      rw [hpf]
      rcases lt_trichotomy (d.peerMetric nbr dst) s.mt with hlow | heq | hhigh
      · rw [if_neg (hrep.taken le_rfl hlow.le), if_pos (.inr hlow)]
        refine .some (.new hrep fun a ha har => hlow.le.trans (h.le a ha har)) rfl ?_
        rw [reporting_concat rfl, reporting_eq_nil
          (fun a ha har => hlow.trans_le (h.le a ha har)) hrep.1 hrep.2]
        rfl
      · have hsame : ¬ (cfg.preference < cfg.preference ∨ d.peerMetric nbr dst < s.mt) := by
          rw [heq]
          simp
        have hkey : ¬ (s.nh.any (·.1 = cfg.ifs nbr)) = true := by
          rw [hnh, List.any_eq_true]
          rintro ⟨e, he, hi⟩
          obtain ⟨hmem, -, he₁⟩ := mem_reporting.mp he
          exact hfresh e.2 hmem (he₁.symm.trans (of_decide_eq_true hi))
        rw [if_neg (hrep.taken le_rfl heq.le), if_neg hsame]
        refine .some (h.concat fun _ => heq.ge) hpf ?_
        change setNh s.nh _ _ = _
        rw [setNh, if_neg hkey, reporting_concat heq, hnh]
      · rw [if_pos (.inr (.inr (.inr hhigh)))]
        exact .some (h.concat fun _ => hhigh.le) hpf
          (hnh.trans (reporting_concat_of_ne hhigh.ne').symm)
  · have hskip : d.peerMetric nbr dst < 0 ∨ cfg.infinity ≤ d.peerMetric nbr dst := by
      by_contra hno
      push Not at hno
      exact hrep hno
    rw [if_pos (by tauto)]
    cases h with
    | none h hs =>
      refine .none (fun a ha => ?_) hs
      rcases List.mem_append.mp ha with ha | ha
      · exact h a ha
      · exact List.mem_singleton.mp ha ▸ hrep
    | some h hpf hnh =>
      have hother : d.peerMetric nbr dst ≠ s.mt := fun he => hrep ⟨he ▸ h.nonneg, he ▸ h.lt⟩
      exact .some (h.concat fun har => absurd har hrep) hpf
        (hnh.trans (reporting_concat_of_ne hother).symm)

/-- The scan finds the least metric of all peers. -/
theorem scanned (hp : cfg.Proper) (hpref : ∀ nbr dst, d.peerPref nbr dst = cfg.preference)
    (dst : N) : Scanned cfg d dst cfg.peers (d.scan cfg dst) := by
  have hall : ∀ l, l <+: cfg.peers → Scanned cfg d dst l
      (l.foldl (d.scanPeer cfg dst) { pf := rtMaxpref, mt := cfg.infinity, nh := [] }) := by
    intro l
    induction l using List.reverseRecOn with
    | nil => exact fun _ => .none (by simp) rfl
    | append_singleton l nbr ih =>
      intro hl
      have hsub : ∀ a ∈ l ++ [nbr], a ∈ cfg.peers := fun a ha => hl.subset ha
      have hnodup := List.Nodup.sublist hl.sublist hp.nodup
      rw [List.foldl_concat]
      refine (ih ((List.prefix_append l [nbr]).trans hl)).step hp (hpref nbr dst) fun a ha he => ?_
      obtain rfl := hp.ifs_inj a (hsub a (by simp [ha])) nbr (hsub nbr (by simp)) he
      exact (List.nodup_append.mp hnodup).2.2 a ha a (by simp) rfl
  exact hall cfg.peers List.prefix_rfl

/-! ### The next hops -/

/-- The old next hops and what is left of the array are the array. -/
theorem keep_perm (rts : List I) (h : (nh.map Prod.fst).Nodup) :
    ((keep rts nh).1 ++ (keep rts nh).2).Perm nh := by
  induction rts generalizing nh with
  | nil => exact .refl nh
  | cons rt rts ih =>
    unfold keep
    cases hf : nh.find? (·.1 = rt) with
    | none => exact ih h
    | some e =>
      obtain ⟨he, pre, post, rfl, hpre⟩ := List.find?_eq_some_iff_append.mp hf
      obtain rfl : e.1 = rt := of_decide_eq_true he
      have hkeys : ∀ p ∈ pre ++ post, p.1 ≠ e.1 := by
        have hmid := (List.perm_middle.map Prod.fst).nodup_iff.mp h
        rw [List.map_cons] at hmid
        intro p hp he
        exact (List.nodup_cons.mp hmid).1 (he ▸ List.mem_map_of_mem hp)
      have hfilter : (pre ++ e :: post).filter (·.1 ≠ e.1) = pre ++ post := by
        rw [List.filter_append, List.filter_cons_of_neg (by simp), ← List.filter_append,
          List.filter_eq_self]
        simpa using hkeys
      have hnodup : ((pre ++ post).map Prod.fst).Nodup := by
        refine h.sublist (List.Sublist.map _ ?_)
        exact (List.Sublist.refl pre).append (List.sublist_cons_self e post)
      dsimp only
      rw [hfilter]
      exact ((ih hnodup).cons e).trans List.perm_middle.symm

theorem length_keep (rts : List I) : (keep rts nh).1.length ≤ rts.length := by
  induction rts generalizing nh with
  | nil => exact le_rfl
  | cons rt rts ih =>
    unfold keep
    cases nh.find? (·.1 = rt) with
    | none => exact ih.trans (Nat.le_succ _)
    | some e => exact Nat.succ_le_succ ih

/-- Old next hops are kept, and others are added for several paths or if none is left. -/
theorem picked_keep (hp : cfg.Proper) (hne : nh ≠ []) (hkeys : (nh.map Prod.fst).Nodup)
    {rts : List I} (hone : cfg.multiPath = false → rts.length ≤ 1) :
    Picked cfg (if cfg.multiPath || (keep rts nh).1.isEmpty
      then (keep rts nh).1 ++ chosen cfg (keep rts nh).2 else (keep rts nh).1) nh := by
  have hperm := keep_perm rts hkeys
  cases hm : cfg.multiPath with
  | true =>
    have hall := hp.names (keep rts nh).2
    simp only [Picked, chosen, hm, Bool.true_or, if_true]
    exact (hall.append_left _).trans hperm
  | false =>
    have hlen : (keep rts nh).1.length ≤ 1 := (length_keep rts).trans (hone hm)
    rw [Bool.false_or]
    rcases hk : (keep rts nh).1 with _ | ⟨e, rest⟩
    · rw [hk, List.nil_append] at hperm
      have hrest : (keep rts nh).2 ≠ [] := fun hnil => hne (List.nil_perm.mp (hnil ▸ hperm))
      have hpick := picked_chosen hp hrest
      simp only [Picked, hm] at hpick ⊢
      obtain ⟨e, he, hch⟩ := hpick
      exact ⟨e, hperm.mem_iff.mp he, hch⟩
    · rw [hk, List.length_cons] at hlen
      obtain rfl : rest = [] := List.eq_nil_of_length_eq_zero (by omega)
      rw [hk] at hperm
      simp only [Picked, hm]
      exact ⟨e, hperm.mem_iff.mp (by simp), rfl⟩

/-- If no peer reports a metric, then the next hops stay. -/
theorem computeRoute_unreached (hp : cfg.Proper)
    (hpref : ∀ nbr dst, d.peerPref nbr dst = cfg.preference) (h : Settled cfg r)
    (hno : ∀ nbr ∈ cfg.peers, ¬ d.Reports cfg dst nbr) :
    Settled cfg (d.computeRoute cfg dst r).1 ∧
      (d.computeRoute cfg dst r).1.nextHop = r.nextHop := by
  obtain ⟨hs, hhops, -, -⟩ := h.refresh hpref dst
  have hscan : d.scan cfg dst = { pf := rtMaxpref, mt := cfg.infinity, nh := [] } := by
    cases scanned hp hpref dst with
    | none _ hs => exact hs
    | some hl _ _ =>
      obtain ⟨nbr, hn, hr⟩ := hl.exists
      exact absurd hr (hno nbr hn)
  unfold computeRoute
  dsimp only
  rw [hscan, if_pos ⟨rfl, rfl⟩]
  exact ⟨hs, hhops⟩

/-- If some peer reports a metric, then the next hops are those of the least one. -/
theorem computeRoute_reached (hp : cfg.Proper)
    (hpref : ∀ nbr dst, d.peerPref nbr dst = cfg.preference) (h : Settled cfg r)
    (hrep : ∃ nbr ∈ cfg.peers, d.Reports cfg dst nbr) :
    Settled cfg (d.computeRoute cfg dst r).1 ∧ Reaches cfg d dst (d.computeRoute cfg dst r).1 := by
  obtain ⟨hs, hhops, hsome, hnone⟩ := h.refresh hpref dst
  have hlt := hp.preference_lt
  obtain ⟨hl, hpf, hnh⟩ : d.LeastReport cfg dst cfg.peers (d.scan cfg dst).mt ∧
      (d.scan cfg dst).pf = cfg.preference ∧
      (d.scan cfg dst).nh = reporting cfg d dst cfg.peers (d.scan cfg dst).mt := by
    cases scanned hp hpref dst with
    | none hno _ =>
      obtain ⟨nbr, hn, hr⟩ := hrep
      exact absurd hr (hno nbr hn)
    | some hl hpf hnh => exact ⟨hl, hpf, hnh⟩
  have hkeys : ((d.scan cfg dst).nh.map Prod.fst).Nodup := hnh ▸ nodup_reporting hp
  have hne : (d.scan cfg dst).nh ≠ [] := by
    obtain ⟨nbr, hn, hm⟩ := hl.mem
    rw [hnh]
    exact List.ne_nil_of_mem (mem_reporting.mpr ⟨hn, hm, rfl⟩ : (cfg.ifs nbr, nbr) ∈ _)
  have hcontinue : ¬ ((d.refresh dst r).rtpref < cfg.preference ∨
      (0 ≤ (d.refresh dst r).metric ∧ (d.refresh dst r).metric < (d.scan cfg dst).mt)) := by
    rw [hs.rtpref]
    rintro (hlow | ⟨hnonneg, hlow⟩)
    · exact lt_irrefl _ hlow
    · cases hh : r.nextHopPeer.head? with
      | none =>
        rw [hnone hh] at hnonneg
        exact absurd hnonneg (by decide +kernel)
      | some p =>
        rw [hsome p hh] at hnonneg hlow
        have hmem := h.peers p (List.mem_of_mem_head? hh)
        exact absurd (hl.le p hmem ⟨hnonneg, hlow.trans hl.lt⟩) (not_le.mpr hlow)
  have hscan : ¬ ((d.scan cfg dst).pf = rtMaxpref ∧ (d.scan cfg dst).mt = cfg.infinity) :=
    fun he => hl.lt.ne he.2
  unfold computeRoute
  dsimp only
  rw [if_neg hscan, hpf, if_neg hcontinue, if_neg (not_le.mpr hl.lt)]
  by_cases hbetter : cfg.preference < (d.refresh dst r).rtpref ∨
      (d.scan cfg dst).mt < (d.refresh dst r).metric
  · rw [if_pos hbetter]
    exact settled_withHops hl (hnh ▸ picked_chosen hp hne)
  · rw [if_neg hbetter]
    have hpick := picked_keep hp hne hkeys hs.single
    exact settled_withHops hl (hnh ▸ hpick)

theorem computeRoute_updated (hp : cfg.Proper)
    (hpref : ∀ nbr dst, d.peerPref nbr dst = cfg.preference) (h : Settled cfg r) :
    Updated cfg d dst r (d.computeRoute cfg dst r).1 := by
  by_cases hrep : ∃ nbr ∈ cfg.peers, d.Reports cfg dst nbr
  · have hr := computeRoute_reached hp hpref h hrep
    refine ⟨hr.1, fun _ => hr.2, fun hno => ?_⟩
    obtain ⟨nbr, hn, hr⟩ := hrep
    exact absurd hr (hno nbr hn)
  · have hu := computeRoute_unreached hp hpref h fun nbr hn hr => hrep ⟨nbr, hn, hr⟩
    exact ⟨hu.1, fun he => absurd he hrep, fun _ => hu.2⟩

end Dv

end Ns2XPass
