import Ns2XPass.Routing.NextHops

/-! # Runs of a distance vector agent

In every run the next hops of a destination are right while some peer reports
it. Once no peer reports it any more, the old next hops stay, and the route is
not deleted.
-/

namespace Ns2XPass

variable {N I : Type} [DecidableEq I] {cfg : DvConfig N I} {d d' : Dv N I} {dst nbr : N}
  {r : DvRoute N I} {l : List N} {ever : N → Prop} {m : ℚ}

namespace Dv

/-- Every destination is reached if some peer reports it, and it has next hops if some peer has
reported it before. -/
structure Kept (cfg : DvConfig N I) (d : Dv N I) (ever : N → Prop) : Prop where
  peerPref : ∀ nbr dst, d.peerPref nbr dst = cfg.preference
  settled : ∀ dst, Settled cfg (d.route dst)
  reaches : ∀ dst ∈ cfg.nodes, (∃ nbr ∈ cfg.peers, d.Reports cfg dst nbr) →
    Reaches cfg d dst (d.route dst)
  ever : ∀ dst ∈ cfg.nodes, (ever dst ↔ (d.route dst).nextHop ≠ [])

/-- The destinations that have been reported, now or before. -/
def everReported (cfg : DvConfig N I) (d : Dv N I) (ever : N → Prop) (dst : N) : Prop :=
  ever dst ∨ ∃ nbr ∈ cfg.peers, d.Reports cfg dst nbr

variable [DecidableEq N]

theorem foldl_computeStep (hp : cfg.Proper) (l : List N)
    (hpref : ∀ nbr dst, d.peerPref nbr dst = cfg.preference)
    (hset : ∀ dst, Settled cfg (d.route dst)) :
    ∃ route n, l.foldl (computeStep cfg) d = { d with route := route, rtsChanged := n } ∧
      ∀ dst, (dst ∈ l → Updated cfg d dst (d.route dst) (route dst)) ∧
        (dst ∉ l → route dst = d.route dst) := by
  induction l generalizing d with
  | nil => exact ⟨d.route, d.rtsChanged, rfl, by simp⟩
  | cons x l ih =>
    have hx : Updated cfg d x (d.route x) (d.computeRoute cfg x (d.route x)).1 :=
      computeRoute_updated hp hpref (hset x)
    have hroute : (computeStep cfg d x).route =
        Function.update d.route x (d.computeRoute cfg x (d.route x)).1 := rfl
    have hset' : ∀ dst, Settled cfg ((computeStep cfg d x).route dst) := by
      intro dst
      rw [hroute]
      rcases eq_or_ne dst x with rfl | hne
      · rw [Function.update_self]
        exact hx.settled
      · rw [Function.update_of_ne hne]
        exact hset dst
    obtain ⟨route, n, he, hr⟩ := ih (d := computeStep cfg d x) hpref hset'
    refine ⟨route, n, by rw [List.foldl_cons, he]; rfl, fun dst => ?_⟩
    obtain ⟨hin, hout⟩ := hr dst
    have hin : dst ∈ l → Updated cfg d dst _ _ := fun hl => (hin hl).congr rfl
    rw [hroute] at hin hout
    rcases eq_or_ne dst x with rfl | hne
    · rw [Function.update_self] at hin hout
      refine ⟨fun _ => ?_, fun hn => absurd List.mem_cons_self hn⟩
      by_cases hl : dst ∈ l
      · have hu := hin hl
        exact ⟨hu.settled, hu.reaches, fun hno => (hu.stays hno).trans (hx.stays hno)⟩
      · exact hout hl ▸ hx
    · rw [Function.update_of_ne hne] at hin hout
      refine ⟨fun hm => hin (List.mem_of_ne_of_mem hne hm), fun hn => hout fun hl => ?_⟩
      exact hn (List.mem_cons_of_mem x hl)

theorem kept_computeRoutes (hp : cfg.Proper)
    (hpref : ∀ nbr dst, d.peerPref nbr dst = cfg.preference)
    (hset : ∀ dst, Settled cfg (d.route dst))
    (hever : ∀ dst ∈ cfg.nodes, (ever dst ↔ (d.route dst).nextHop ≠ [])) :
    Kept cfg (d.computeRoutes cfg) (everReported cfg (d.computeRoutes cfg) ever) := by
  obtain ⟨route, n, he, hr⟩ := foldl_computeStep (d := { d with rtsChanged := 0 }) hp cfg.nodes
    hpref hset
  rw [computeRoutes, he]
  refine ⟨hpref, fun dst => ?_, fun dst hd hrep => (((hr dst).1 hd).reaches hrep).congr rfl,
    fun dst hd => ?_⟩
  · by_cases hd : dst ∈ cfg.nodes
    · exact ((hr dst).1 hd).settled
    · exact (congrArg (Settled cfg) ((hr dst).2 hd)).mpr (hset dst)
  · have hu := (hr dst).1 hd
    unfold everReported
    rw [hever dst hd]
    by_cases hrep : ∃ nbr ∈ cfg.peers, d.Reports cfg dst nbr
    · exact iff_of_true (.inr hrep) (hu.reaches hrep).nextHop_ne_nil
    · have hstay : (route dst).nextHop = (d.route dst).nextHop :=
        hu.stays fun nbr hn hr => hrep ⟨nbr, hn, hr⟩
      change _ ↔ (route dst).nextHop ≠ []
      rw [hstay]
      exact or_iff_left hrep

omit [DecidableEq I] in
/-- The metrics of an update are stored, and the routes are left as they are. -/
theorem foldl_readMetric (metrics : List (N × ℚ)) (n : ℕ) :
    ∃ metric k, metrics.foldl (readMetric cfg nbr) (d, n) =
        ({ d with peerMetric := metric }, n + k) ∧ (k = 0 → metric = d.peerMetric) := by
  induction metrics generalizing d n with
  | nil => exact ⟨d.peerMetric, 0, rfl, fun _ => rfl⟩
  | cons e metrics ih =>
    rw [List.foldl_cons]
    by_cases hsame : min (e.2 + cfg.cost (cfg.ifs nbr)) cfg.infinity = d.peerMetric nbr e.1
    · rw [readMetric, if_pos hsame]
      exact ih n
    · rw [readMetric, if_neg hsame]
      obtain ⟨metric, k, he, -⟩ := ih (d := d.setMetric nbr e.1
        (min (e.2 + cfg.cost (cfg.ifs nbr)) cfg.infinity)) (n + 1)
      exact ⟨metric, k + 1, by rw [he, Nat.add_right_comm]; rfl, by omega⟩

omit [DecidableEq I] in
/-- Interfaces that fail change the metrics only. -/
theorem foldl_readInterface (up : N → Bool) (l : List N) :
    ∃ metric ifstat ifsUp, l.foldl (readInterface cfg up) d =
      { d with peerMetric := metric, ifstat := ifstat, ifsUp := ifsUp } := by
  have hfail : ∀ (l : List N) (nbr : N) (d : Dv N I), ∃ metric,
      l.foldl (fun d dst => d.setMetric nbr dst cfg.infinity) d =
        { d with peerMetric := metric } := by
    intro l nbr
    induction l with
    | nil => exact fun d => ⟨d.peerMetric, rfl⟩
    | cons x l ih =>
      intro d
      obtain ⟨metric, he⟩ := ih (d.setMetric nbr x cfg.infinity)
      exact ⟨metric, he⟩
  induction l generalizing d with
  | nil => exact ⟨d.peerMetric, d.ifstat, d.ifsUp, rfl⟩
  | cons nbr l ih =>
    obtain ⟨metric, ifstat, ifsUp, he⟩ : ∃ metric ifstat ifsUp, readInterface cfg up d nbr =
        { d with peerMetric := metric, ifstat := ifstat, ifsUp := ifsUp } := by
      unfold readInterface
      split_ifs with hsame hup
      · exact ⟨d.peerMetric, d.ifstat, d.ifsUp, rfl⟩
      · exact ⟨d.peerMetric, _, _, rfl⟩
      · obtain ⟨metric, he⟩ := hfail cfg.nodes nbr
          { d with ifstat := Function.update d.ifstat nbr (up nbr) }
        exact ⟨metric, _, d.ifsUp, he⟩
    obtain ⟨metric', ifstat', ifsUp', he'⟩ := ih (d := readInterface cfg up d nbr)
    rw [he] at he'
    exact ⟨metric', ifstat', ifsUp', by rw [List.foldl_cons, he, he']⟩

theorem Kept.recvUpdate (h : Kept cfg d ever) (hp : cfg.Proper) {peerAddr : ℕ}
    {metrics : List (N × ℚ)} (hs : d.recvUpdate cfg peerAddr metrics = .ok d') :
    Kept cfg d' (everReported cfg d' ever) := by
  unfold Dv.recvUpdate at hs
  cases hf : cfg.peers.find? (cfg.addr · = peerAddr) with
  | none =>
    rw [hf] at hs
    exact absurd hs (by simp)
  | some nbr =>
    rw [hf] at hs
    dsimp only at hs
    obtain ⟨metric, k, he, hk⟩ : ∃ metric k, metrics.foldl (readMetric cfg nbr) (d, 0) =
        ({ d with peerMetric := metric }, 0 + k) ∧ (k = 0 → metric = d.peerMetric) :=
      foldl_readMetric metrics 0
    rw [he] at hs
    dsimp only at hs
    split_ifs at hs with hlarge hchanged
    · obtain rfl := Except.ok.inj hs
      have hkept := kept_computeRoutes (d := { d with peerMetric := metric }) hp
        h.peerPref h.settled h.ever
      exact ⟨hkept.peerPref, hkept.settled, fun dst hd hr => (hkept.reaches dst hd hr).congr rfl,
        hkept.ever⟩
    · obtain rfl := Except.ok.inj hs
      obtain rfl := hk (by omega)
      refine ⟨h.peerPref, h.settled, h.reaches, fun dst hd => ?_⟩
      unfold everReported
      rw [h.ever dst hd]
      exact or_iff_left_of_imp fun hr => (h.reaches dst hd hr).nextHop_ne_nil

theorem Kept.intfChanged (h : Kept cfg d ever) (hp : cfg.Proper) (up : N → Bool) :
    Kept cfg (d.intfChanged cfg up) (everReported cfg (d.intfChanged cfg up) ever) := by
  obtain ⟨metric, ifstat, ifsUp, he⟩ := foldl_readInterface
    (d := { d with ifsUp := [] }) up cfg.peers
  unfold Dv.intfChanged
  rw [he]
  exact kept_computeRoutes hp h.peerPref h.settled h.ever

end Dv

/-- A run, with the destinations that some peer has reported. -/
def dvHistory [DecidableEq N] (cfg : DvConfig N I) :
    Machine (Dv N I × (N → Prop)) (DvEvent N) DvError :=
  (dvMachine cfg).withHistory (fun _ => False) fun _ _ d' ever => d'.everReported cfg ever

theorem dvHistory_invariant [DecidableEq N] (hp : cfg.Proper) :
    (dvHistory cfg).Invariant fun p => p.1.Kept cfg p.2 where
  init p hi := by
    obtain ⟨⟨ifstat, hd⟩, hever⟩ := hi
    rw [hd, hever]
    refine ⟨fun _ _ => rfl, fun _ => ⟨rfl, rfl, by simp [Dv.new], fun _ => Nat.zero_le _,
      fun _ => rfl⟩, ?_, fun _ _ => ?_⟩
    · rintro dst - ⟨nbr, -, hr⟩
      exact absurd hr.2 (lt_irrefl cfg.infinity)
    · simp [Dv.new]
  step p x p' h _ hs := by
    obtain ⟨hstep, hever⟩ := (Machine.withHistory_step_iff _).mp hs
    rw [hever]
    cases x with
    | recvUpdate peerAddr metrics => exact h.recvUpdate hp hstep
    | intfChanged up =>
      have hd : p'.1 = p.1.intfChanged cfg up := (Except.ok.inj hstep).symm
      rw [hd]
      exact h.intfChanged hp up

/-! ### The route of the node -/

namespace RtRoute

variable {tables : RtProtoName → N → RtEntry I} {protos : List RtProtoName} {route : RtRoute I}

omit [DecidableEq I] in
theorem best_of_nil (h : ∀ p ∈ protos, (tables p dst).nextHop = []) :
    best tables protos dst =
      { rtpref := rtMaxpref, metric := rtUnreach, nextHop := [], rtVia := none } := by
  unfold best
  induction protos with
  | nil => rfl
  | cons p protos ih =>
    rw [List.foldl_cons, if_pos (h p List.mem_cons_self)]
    exact ih fun q hq => h q (List.mem_cons_of_mem p hq)

/-- Without a next hop, the route is deleted. -/
theorem compute_of_nil (h : ∀ p ∈ protos, (tables p dst).nextHop = []) :
    (compute tables protos dst route).1.nextHop = [] ∧
      (route.nextHop ≠ [] →
        .deleteRoutes dst route.nextHop ∈ (compute tables protos dst route).2) := by
  unfold compute
  dsimp only
  rw [best_of_nil h, if_pos rfl]
  split_ifs with hr
  · exact ⟨rfl, fun _ => List.mem_singleton.mpr rfl⟩
  · exact ⟨not_not.mp hr, fun hn => absurd hn hr⟩

end RtRoute

theorem rtComputeRoutes_of_nil [DecidableEq N] {tables : RtProtoName → N → RtEntry I}
    {protos : List RtProtoName} {node : N} {nodes : List N} {route : N → RtRoute I}
    (h : ∀ p ∈ protos, (tables p dst).nextHop = []) (hd : dst ∈ nodes) (hne : dst ≠ node) :
    ((rtComputeRoutes tables protos node true nodes route).1 dst).nextHop = [] ∧
      ((route dst).nextHop ≠ [] → .deleteRoutes dst (route dst).nextHop ∈
        (rtComputeRoutes tables protos node true nodes route).2) := by
  have hall : ∀ (l : List N) (p : (N → RtRoute I) × List (NodeCall N I)),
      let q := l.foldl (fun p x =>
        if x = node then p
        else
          let r := RtRoute.compute tables protos x (p.1 x)
          (Function.update p.1 x r.1, p.2 ++ r.2)) p
      (∀ c ∈ p.2, c ∈ q.2) ∧ (dst ∉ l → q.1 dst = p.1 dst) ∧ (dst ∈ l → (q.1 dst).nextHop = [] ∧
        ((p.1 dst).nextHop ≠ [] → .deleteRoutes dst (p.1 dst).nextHop ∈ q.2)) := by
    intro l
    induction l with
    | nil => exact fun p => ⟨fun _ hc => hc, fun _ => rfl, fun hm => absurd hm List.not_mem_nil⟩
    | cons x l ih =>
      intro p
      rw [List.foldl_cons]
      by_cases hx : x = node
      · obtain ⟨hmono, hout, hin⟩ := ih p
        have hdx : dst ≠ x := fun he => hne (he.trans hx)
        rw [if_pos hx]
        exact ⟨hmono, fun hm => hout fun hl => hm (List.mem_cons_of_mem x hl),
          fun hm => hin (List.mem_of_ne_of_mem hdx hm)⟩
      · rw [if_neg hx]
        obtain ⟨hmono, hout, hin⟩ := ih (Function.update p.1 x
          (RtRoute.compute tables protos x (p.1 x)).1,
          p.2 ++ (RtRoute.compute tables protos x (p.1 x)).2)
        dsimp only at hmono hout hin
        refine ⟨fun c hc => hmono c (List.mem_append_left _ hc), ?_, ?_⟩
        · intro hm
          rw [hout (List.not_mem_of_not_mem_cons hm)]
          exact Function.update_of_ne (List.ne_of_not_mem_cons hm) _ _
        · intro hm
          rcases eq_or_ne dst x with rfl | hdx
          · obtain ⟨hnil, hdel⟩ := (RtRoute.compute_of_nil h : _ ∧ ((p.1 dst).nextHop ≠ [] → _))
            refine ⟨?_, fun hn => hmono _ (List.mem_append_right _ (hdel hn))⟩
            by_cases hl : dst ∈ l
            · exact (hin hl).1
            · rw [hout hl, Function.update_self]
              exact hnil
          · have hkeep := hin (List.mem_of_ne_of_mem hdx hm)
            rw [Function.update_of_ne hdx] at hkeep
            exact hkeep
  exact (hall nodes (route, [])).2.2 hd

namespace Dv

/-- If `rtObject` has no other route to a destination, then it deletes the route when it computes
its routes. -/
def DeletesRoute [DecidableEq N] (d : Dv N I) (dst : N) : Prop :=
  ∀ (tables : RtProtoName → N → RtEntry I) (protos : List RtProtoName) (node : N) (nodes : List N)
    (route : N → RtRoute I), dst ∈ nodes → dst ≠ node → tables .dv dst = (d.route dst).toRtEntry →
    (∀ p ∈ protos, p ≠ .dv → (tables p dst).nextHop = []) →
    ((rtComputeRoutes tables protos node true nodes route).1 dst).nextHop = [] ∧
      ((route dst).nextHop ≠ [] → .deleteRoutes dst (route dst).nextHop ∈
        (rtComputeRoutes tables protos node true nodes route).2)

/-- The next hops of a destination are those of its least metric, and there are none if no peer
reports it. -/
structure NextHopsRight [DecidableEq N] (cfg : DvConfig N I) (d : Dv N I) (dst : N) : Prop where
  metric : ∀ m, d.LeastReport cfg dst cfg.peers m → (d.route dst).metric = m
  all : ∀ m, d.LeastReport cfg dst cfg.peers m → cfg.multiPath = true →
    (d.route dst).nextHop.Nodup ∧ ∀ i, i ∈ (d.route dst).nextHop ↔
      ∃ nbr ∈ cfg.peers, d.peerMetric nbr dst = m ∧ cfg.ifs nbr = i
  one : ∀ m, d.LeastReport cfg dst cfg.peers m → cfg.multiPath = false →
    ∃ nbr ∈ cfg.peers, d.peerMetric nbr dst = m ∧ (d.route dst).nextHop = [cfg.ifs nbr]
  none : (∀ nbr ∈ cfg.peers, ¬ d.Reports cfg dst nbr) → (d.route dst).nextHop = []
  deletes : (∀ nbr ∈ cfg.peers, ¬ d.Reports cfg dst nbr) → d.DeletesRoute dst

end Dv

/-- In every run, the next hops of a destination are right if and only if some peer reports it or
none ever has. -/
theorem dv_nextHops [DecidableEq N] (hp : cfg.Proper) {p : Dv N I × (N → Prop)}
    (hr : (dvHistory cfg).Reachable p) (hd : dst ∈ cfg.nodes) :
    p.1.NextHopsRight cfg dst ↔
      (∃ nbr ∈ cfg.peers, p.1.Reports cfg dst nbr) ∨ ¬ p.2 dst := by
  have hk := (dvHistory_invariant hp).reachable hr
  constructor
  · intro h
    by_contra hno
    push Not at hno
    exact (hk.ever dst hd).mp hno.2 (h.none hno.1)
  · intro h
    have hnone : (∀ nbr ∈ cfg.peers, ¬ p.1.Reports cfg dst nbr) →
        (p.1.route dst).nextHop = [] := by
      intro hno
      rcases h with ⟨nbr, hn, hrep⟩ | hever
      · exact absurd hrep (hno nbr hn)
      · rw [hk.ever dst hd] at hever
        exact not_not.mp hever
    have hreach : ∀ m, p.1.LeastReport cfg dst cfg.peers m →
        (p.1.route dst).metric = m ∧ p.1.Reaches cfg dst (p.1.route dst) := by
      intro m hm
      have hreach := hk.reaches dst hd hm.exists
      exact ⟨hreach.least.unique hm, hreach⟩
    refine ⟨fun m hm => (hreach m hm).1, fun m hm hmp => ?_, fun m hm hmp => ?_, hnone, ?_⟩
    · obtain ⟨rfl, hre⟩ := hreach m hm
      exact hre.all (hk.settled dst) hp hmp
    · obtain ⟨rfl, hre⟩ := hreach m hm
      exact hre.one (hk.settled dst) hmp
    · intro hno tables protos node nodes route hmem hne htable hother
      refine rtComputeRoutes_of_nil (fun q hq => ?_) hmem hne
      by_cases hq' : q = .dv
      · rw [hq', htable]
        exact hnone hno
      · exact hother q hq hq'

instance [DecidableEq N] (d : Dv N I) (x : DvEvent N) : Decidable ((dvMachine cfg).Enabled d x) :=
  match x with
  | .recvUpdate _ metrics => inferInstanceAs (Decidable (∀ entry ∈ metrics, entry.1 ∈ cfg.nodes))
  | .intfChanged _ => inferInstanceAs (Decidable True)

/-- A node with two neighbours. -/
def forkConfig : DvConfig ℕ ℕ where
  infinity := 32
  preference := 120
  multiPath := true
  nodes := [0, 1, 2]
  peers := [1, 2]
  ifs := id
  addr := id
  cost _ := 1
  arrayNames := id

theorem forkConfig_proper : forkConfig.Proper :=
  ⟨by decide, by decide, fun _ _ _ _ h => h, fun l => .refl l⟩

theorem dv_nextHops_fork :
    ∃ p, (dvHistory forkConfig).Reachable p ∧ p.1.NextHopsRight forkConfig 2 ∧
      (p.1.route 2).nextHop = [1] := by
  have h₀ : (dvMachine forkConfig).Reachable (.new forkConfig fun _ => true) := .init ⟨_, rfl⟩
  obtain ⟨d, hd, hq⟩ := h₀.exists_of_exec [.recvUpdate 1 [(2, 3)]]
    (fun d => (0 ≤ d.peerMetric 1 2 ∧ d.peerMetric 1 2 < 32) ∧ (d.route 2).nextHop = [1])
    (by decide +kernel)
  obtain ⟨hrep, hhop⟩ := of_decide_eq_true hq
  obtain ⟨ever, hp⟩ := hd.exists_history
  exact ⟨(d, ever), hp, (dv_nextHops forkConfig_proper hp (by decide)).mpr
    (.inl ⟨1, by decide, hrep⟩), hhop⟩

/-- When the only peer with a route reports infinity, then its interface stays the next hop. -/
theorem dv_nextHop_stays :
    ∃ d, (dvMachine forkConfig).Reachable d ∧ ¬ d.NextHopsRight forkConfig 2 := by
  have h₀ : (dvMachine forkConfig).Reachable (.new forkConfig fun _ => true) := .init ⟨_, rfl⟩
  obtain ⟨d, hd, hq⟩ := h₀.exists_of_exec [.recvUpdate 1 [(2, 3)], .recvUpdate 1 [(2, 32)]]
    (fun d => (∀ nbr ∈ forkConfig.peers, d.peerMetric nbr 2 = 32) ∧ (d.route 2).nextHop = [1])
    (by decide +kernel)
  obtain ⟨hno, hhop⟩ := of_decide_eq_true hq
  refine ⟨d, hd, fun h => ?_⟩
  have hnil := h.none fun nbr hn hr => hr.2.ne (hno nbr hn)
  rw [hhop] at hnil
  exact absurd hnil (by simp)

end Ns2XPass
