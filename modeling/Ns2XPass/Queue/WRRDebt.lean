import Mathlib.Algebra.Order.Archimedean.Basic
import Mathlib.Tactic.NormNum
import Ns2XPass.Queue.WRRRuns

/-! # Debts that are forgiven

A class whose debt is at least its weight is passed, and the scan sets its debt to
0 as it leaves the class. A class with a small weight so sends more than its share.
-/

namespace Ns2XPass

/-- What the limit of a class depends on. -/
def CBQClassState.times (k : CBQClassState) : ℚ × ℚ × ℚ := (k.undertime, k.avgidle, k.lastTime)

namespace CBQueue

variable {C : Type} [DecidableEq C] {cfg : CBQConfig C} {now : ℚ} {s s' t : CBQueue C}
  {r : Scan C} {c x : C} {p : Packet} {ps : List Packet} {o : Option Packet}
  {k k' : CBQClassState}

/-! ## Classes below their limits -/

theorem times_setBytes (s : CBQueue C) (c x : C) (n : ℤ) :
    ((s.setBytes c n).cls x).times = (s.cls x).times := by
  rw [setBytes, cls_setCls]
  split <;> rfl

theorem times_sendPermitted (h : s.sendPermitted cfg c now = some s') :
    ((s'.cls x).times) = (s.cls x).times := by
  unfold sendPermitted at h
  split at h
  · obtain rfl := Option.some.inj h
    rw [lend_cls, cls_setCls]
    split <;> rfl
  · split at h
    · obtain ⟨d, -, rfl⟩ := Option.map_eq_some_iff.mp h
      rfl
    · simp at h

/-- A scan of classes that are all below their limits refuses none, and does not change the
limits. -/
theorem scan_calm (hw : cfg.wrr = true) (hu : ∀ x, (s.cls x).undertime < now)
    (hs : s.scan cfg now = .ok r) :
    (∀ x, (x, false) ∉ r.asked) ∧ ∀ x, (r.queue.cls x).times = (s.cls x).times := by
  have hvisit : ∀ c (r : Scan C), r.eligible = none →
      (∀ x, (x, false) ∉ r.asked) ∧ (∀ x, (r.queue.cls x).times = (s.cls x).times) →
      (∀ x, (x, false) ∉ (wrrVisit cfg now c r).asked) ∧
        ∀ x, ((wrrVisit cfg now c r).queue.cls x).times = (s.cls x).times := by
    rintro c r - ⟨ha, ht⟩
    have ha' : ∀ x, (x, false) ∉ (r.refill cfg c).asked := by
      rw [refill_asked]
      exact ha
    have ht' : ∀ x, ((r.refill cfg c).queue.cls x).times = (s.cls x).times := by
      intro x
      obtain ⟨n, hn⟩ := refill_queue cfg r c
      rw [hn, times_setBytes]
      exact ht x
    have hlt : ((r.refill cfg c).queue.cls c).undertime < now := by
      have : ((r.refill cfg c).queue.cls c).undertime = (s.cls c).undertime :=
        congrArg Prod.fst (ht' c)
      rw [this]
      exact hu c
    rcases wrrVisit_cases cfg now c r with ⟨-, hv⟩ | ⟨-, hs, -⟩ | ⟨s₁, -, hs, ⟨-, hv⟩ | ⟨-, hv⟩⟩
    · rw [hv]
      exact ⟨ha', fun x => (times_setBytes _ c x 0).trans (ht' x)⟩
    · exact absurd hlt (not_under_of_refused hs)
    · rw [hv]
      refine ⟨fun x hx => ?_, fun x => ?_⟩
      · rcases List.mem_cons.mp hx with hx | hx
        · simp at hx
        · exact ha' x hx
      · exact (times_setBytes s₁ c x 0).trans ((times_sendPermitted hs).trans (ht' x))
    · rw [hv]
      refine ⟨fun x hx => ?_, fun x => (times_sendPermitted hs).trans (ht' x)⟩
      rcases List.mem_cons.mp hx with hx | hx
      · simp at hx
      · exact ha' x hx
  exact scan_preserves (P := fun r : Scan C => (∀ x, (x, false) ∉ r.asked) ∧
    ∀ x, (r.queue.cls x).times = (s.cls x).times) hw hvisit (fun _ _ h => h)
    ⟨fun _ => List.not_mem_nil, fun _ => rfl⟩ hs

omit [DecidableEq C] in
theorem times_sent (h : k.times = k'.times) :
    (k.sent cfg c now p).times = (k'.sent cfg c now p).times := by
  obtain ⟨l, u, a, d, b⟩ := k
  obtain ⟨l', u', a', d', b'⟩ := k'
  simp only [CBQClassState.times, Prod.mk.injEq] at h
  obtain ⟨rfl, rfl, rfl⟩ := h
  rfl

theorem account_cls (h : s.account cfg c now p = .ok s') : s'.cls = (s.update cfg c now p).cls := by
  unfold account at h
  dsimp only at h
  split at h
  · unfold toplevelDeparture at h
    split at h
    · simp at h
    · split at h
      · split at h <;> exact (Except.ok.inj h) ▸ rfl
      · exact (Except.ok.inj h) ▸ rfl
  · exact (Except.ok.inj h) ▸ rfl

/-- A class without lenders is the only one whose limit its packet changes. -/
theorem times_sendWrr (hp : s.pendingPkt = none) (hps : (s.sub c).packets = p :: ps)
    (hl : cfg.lenders c = []) (h : s.sendWrr cfg c now true = .ok s') (x : C) :
    (s'.cls x).times = if x = c then ((s.cls c).sent cfg c now p).times else (s.cls x).times := by
  unfold sendWrr at h
  rw [resumeSub_cons hp hps] at h
  generalize hu : ({ s.setSub c (fun q => { q with packets := ps }) with
    blocked := true, pendingPkt := some p } : CBQueue C) = u at h
  have hcls : u.cls = s.cls := by rw [← hu]; rfl
  have hpend : u.pendingPkt = some p := by rw [← hu]
  simp only [Bind.bind, Except.bind, hpend] at h
  have hspend : ∀ y, ((u.spend c p).cls y).times = (s.cls y).times := by
    intro y
    rw [← hcls]
    unfold spend
    split
    · exact times_setBytes u c y _
    · rfl
  cases ha : (u.spend c p).account cfg c now p with
  | error e => simp [ha] at h
  | ok s₁ =>
    simp only [ha, Except.ok.injEq] at h
    have hone : (u.spend c p).update cfg c now p = (u.spend c p).updateOne cfg c now p := by
      rw [update, hl]
      rfl
    have hs : s'.cls = ((u.spend c p).updateOne cfg c now p).cls := by
      have hs₁ : s₁.cls = ((u.spend c p).updateOne cfg c now p).cls :=
        (account_cls ha).trans (by rw [hone])
      rw [← hs₁, ← h]
      rfl
    rw [hs, updateOne, cls_setCls]
    split
    · next hx =>
      subst hx
      exact times_sent (hspend x)
    · exact hspend x

/-- The same for `deque`, of classes that are all below their limits. -/
theorem Dequeued.times (h : Dequeued cfg now s r o s') (hr : Rests cfg s) (hw : cfg.wrr = true)
    (hu : ∀ x, (s.cls x).undertime < now) (he : r.eligible = some c)
    (hps : (s.sub c).packets = p :: ps) (hl : cfg.lenders c = []) (x : C) :
    (s'.cls x).times = if x = c then ((s.cls c).sent cfg c now p).times else (s.cls x).times := by
  obtain ⟨-, ht⟩ := scan_calm hw hu h.scan
  have hk := h.outcome.kept
  have hd := h.deque
  unfold CBQueue.deque at hd
  obtain ⟨r', hr', hd⟩ := bind_eq_ok.mp hd
  obtain rfl : r = r' := Except.ok.inj (h.scan.symm.trans hr')
  obtain ⟨u, hsend, hd⟩ := bind_eq_ok.mp hd
  have hcls : s'.cls = u.cls := by
    have := (Prod.mk.inj (Except.ok.inj hd)).2
    rw [← this]
  have hchosen : r.chosen = some c := by simp [Scan.chosen, he]
  rw [sendFrom, hchosen] at hsend
  dsimp only at hsend
  rw [if_pos hw, he] at hsend
  rw [hcls, times_sendWrr (hk.pendingPkt.trans hr.pendingPkt) (by rw [hk.sub]; exact hps) hl hsend]
  split
  · exact times_sent (ht c)
  · exact ht x

omit [DecidableEq C] in
/-- A class that sends late enough stays below its limit. -/
theorem sent_calm (ha : 0 ≤ k.avgidle)
    (hi : 0 < now + cfg.txtime p - k.lastTime - p.size / cfg.maxrate c)
    (hm : 0 < (cfg.cls c).maxidle) :
    (k.sent cfg c now p).undertime = k.undertime ∧ 0 ≤ (k.sent cfg c now p).avgidle ∧
      (k.sent cfg c now p).lastTime = now + cfg.txtime p := by
  have hpos : 0 < k.avgidle +
      (now + cfg.txtime p - k.lastTime - p.size / cfg.maxrate c - k.avgidle) / 16 := by
    linarith
  unfold CBQClassState.sent
  dsimp only
  split
  · exact ⟨if_neg (not_le.mpr hm), hm.le, rfl⟩
  · exact ⟨if_neg (not_le.mpr hpos), hpos.le, rfl⟩

end CBQueue

/-! ## A run in which debts are forgiven -/

namespace CBQSystem

open CBQueue

def debtWeight (c : Fin 3) : ℤ := if c = 0 then 5 else if c = 1 then 1 else 3

theorem weight_debtQueue : ∀ c, debtQueue.queue.weight debtClasses c = debtWeight c := by
  decide +kernel

/-- The credit of a class as a visit refills it. -/
def debtCredit (credit : Fin 3 → ℤ) (c : Fin 3) : ℤ :=
  if credit c ≤ 0 then credit c + debtWeight c else credit c

variable {T : ℚ} {ring : List (Fin 3)} {credit : Fin 3 → ℤ} {count : Fin 3 → ℕ}
  {s t u : CBQSystem (Fin 3)} {a b a' b' : ℤ} {c : Fin 3}

/-- At the time `T` a class is far from its limit. -/
structure Calm (T : ℚ) (k : CBQClassState) : Prop where
  undertime : k.undertime = 0
  avgidle : 0 ≤ k.avgidle
  lastTime : k.lastTime ≤ T + 3

theorem Calm.later {k k' : CBQClassState} (h : Calm T k) (ht : k'.times = k.times) :
    Calm (T + 30) k' := by
  have hu : k'.undertime = k.undertime := congrArg Prod.fst ht
  have ha : k'.avgidle = k.avgidle := congrArg (·.2.1) ht
  have hl : k'.lastTime = k.lastTime := congrArg (·.2.2) ht
  have hlast := h.lastTime
  exact ⟨hu.trans h.undertime, ha ▸ h.avgidle, by rw [hl]; linarith⟩

theorem debtRate : ∀ c, (debtPacket.size : ℚ) / debtClasses.maxrate c ≤ 27 := by decide +kernel

theorem Calm.sent {k k' : CBQClassState} (h : Calm T k)
    (ht : k'.times = (k.sent debtClasses c (T + 30) debtPacket).times) : Calm (T + 30) k' := by
  have htx : debtClasses.txtime debtPacket = 3 := by decide +kernel
  have hlast := h.lastTime
  have hrate := debtRate c
  have hidle : 0 < T + 30 + debtClasses.txtime debtPacket - k.lastTime -
      debtPacket.size / debtClasses.maxrate c := by
    rw [htx]
    linarith
  obtain ⟨hu, ha, hl⟩ := sent_calm h.avgidle hidle one_pos
  have hu' : k'.undertime = _ := congrArg Prod.fst ht
  have ha' : k'.avgidle = _ := congrArg (·.2.1) ht
  have hl' : k'.lastTime = _ := congrArg (·.2.2) ht
  exact ⟨(hu'.trans hu).trans h.undertime, ha' ▸ ha, hl'.trans_le (by rw [← htx]; exact hl.le)⟩

/-- The queue at the time `T`, while the link is busy and no class is near its limit. -/
structure Pattern (T : ℚ) (ring : List (Fin 3)) (credit : Fin 3 → ℤ) (count : Fin 3 → ℕ)
    (s : CBQSystem (Fin 3)) : Prop where
  steady : Steady debtClasses 0 debtQueue.queue s
  pos : 0 < T
  clock : s.clock ≤ T
  intr : s.intr = false
  outstanding : s.outstanding = 1
  active : s.queue.active 0 = ring
  bytes : ∀ c, (s.queue.cls c).bytesAlloc = credit c
  packets : ∀ c, (s.queue.sub c).packets = List.replicate (count c) debtPacket
  calm : ∀ c, Calm T (s.queue.cls c)

/-- A part of a run that sends `a` bytes of class 1 and `b` bytes of class 2, both of which are
backlogged and permitted on every visit. -/
def Serves (s : CBQSystem (Fin 3)) (a b : ℤ) (t : CBQSystem (Fin 3)) : Prop :=
  ∃ ts, (sized debtClasses).Path s ts t ∧ (∀ c, c ≠ 0 → ContendsOn debtClasses c ts) ∧
    (ts.map (CBQSystem.bytes debtClasses 1)).sum = a ∧
      (ts.map (CBQSystem.bytes debtClasses 2)).sum = b

theorem Serves.trans (h : Serves s a b t) (h' : Serves t a' b' u) :
    Serves s (a + a') (b + b') u := by
  obtain ⟨ts, hp, hc, ha, hb⟩ := h
  obtain ⟨us, hp', hc', ha', hb'⟩ := h'
  refine ⟨ts ++ us, hp.append hp', fun c hc₀ r hr => ?_, ?_, ?_⟩
  · rcases List.mem_append.mp hr with hr | hr
    · exact hc c hc₀ r hr
    · exact hc' c hc₀ r hr
  · rw [List.map_append, List.sum_append, ha, ha']
  · rw [List.map_append, List.sum_append, hb, hb']

theorem Serves.one {x : ℚ × CBQEvent (Fin 3)} (he : (sized debtClasses).Enabled s x)
    (hs : (sized debtClasses).step s x = .ok t)
    (hc : ∀ c, c ≠ 0 → ∀ v, scanOf debtClasses (s, x) = some v → Contends c s.queue v) :
    Serves s (CBQSystem.bytes debtClasses 1 (s, x)) (CBQSystem.bytes debtClasses 2 (s, x)) t := by
  refine ⟨[(s, x)], .cons he hs (.nil t), fun c hc₀ r hr => ?_, by simp, by simp⟩
  rw [List.mem_singleton.mp hr]
  exact hc c hc₀

/-- A packet arrives at a class while the link is busy. -/
theorem Pattern.arrival (h : Pattern T ring credit count s) (hc : c ∈ ring) :
    ∃ s', Pattern T ring credit (Function.update count c (count c + 1)) s' ∧ Serves s 0 0 s' := by
  have hw := h.steady.fit.waits
  have hblk : s.queue.blocked = true := hw.blocked.mpr (.inr h.outstanding)
  have hmem : c ∈ s.queue.active 0 := by rw [h.active]; exact hc
  have he : (sized debtClasses).Enabled s (T, .arrival c debtPacket) :=
    ⟨⟨h.clock, hmem⟩, by decide, by decide⟩
  have hs : (sized debtClasses).step s (T, .arrival c debtPacket) = .ok
      { s with
        clock := T
        queue := s.queue.setSub c fun k => { k with packets := k.packets ++ [debtPacket] } } := by
    have hsub : ((s.queue.setSub c fun k =>
        { k with packets := debtClasses.enque c k.packets debtPacket }).sub c).blocked = true := by
      rw [sub_setSub, if_pos rfl]
      exact hw.rests.subs c
    change arrive debtClasses { s with clock := T } T c debtPacket = _
    unfold arrive recvSub
    simp only [show debtClasses.eligible ≠ .toplevel from by decide, if_false, hsub, if_true,
      Bind.bind, Except.bind]
    exact if_pos hblk
  refine ⟨_, ⟨h.steady.step rfl he hs, h.pos, le_rfl, h.intr, h.outstanding, h.active, h.bytes,
    fun d => ?_, h.calm⟩, ?_⟩
  · rw [sub_setSub]
    by_cases hd : d = c
    · subst hd
      rw [if_pos rfl, Function.update_self]
      change (s.queue.sub d).packets ++ [debtPacket] = _
      rw [h.packets, List.replicate_succ']
    · rw [if_neg hd, Function.update_of_ne hd]
      exact h.packets d
  · exact Serves.one he hs fun _ _ v hv => by simp [scanOf] at hv

theorem Pattern.refilled (h : Pattern T ring credit count s) (c : Fin 3) :
    s.queue.refilled debtClasses c = debtCredit credit c := by
  rw [CBQueue.refilled, debtCredit, h.bytes, h.steady.weight, weight_debtQueue]

/-- The link calls back after 30 seconds, and a class with credit sends. -/
theorem Pattern.callback (h : Pattern T ring credit count s) (hc : c ∈ ring)
    (hd : 0 < debtCredit credit c) (hcount : ∀ x, x ≠ 0 → 0 < count x) :
    ∃ pre d post s', ring = pre ++ d :: post ∧ c ∉ pre ∧ 0 < debtCredit credit d ∧
      Pattern (T + 30)
        (if 0 < debtCredit credit d - 3 then d :: post ++ pre else post ++ pre ++ [d])
        (fun y => if pre.any fun x => x = y then 0
          else if y = d then debtCredit credit d - 3 else credit y)
        (Function.update count d (count d - 1)) s' ∧
      Serves s (if 1 = d then 3 else 0) (if 2 = d then 3 else 0) s' := by
  have hw := h.steady.fit.waits
  have hr := hw.rests
  have hpos := h.pos
  have hunder : ∀ x, (s.queue.cls x).undertime < T + 30 := by
    intro x
    rw [(h.calm x).undertime]
    linarith
  obtain ⟨r, o, q, hdq⟩ := hr.deque (T + 30)
  have hmem : c ∈ s.queue.active 0 := by rw [h.active]; exact hc
  have hdemand : ∀ x, x ≠ 0 → s.queue.demand x = true := by
    intro x hx
    rw [demand_iff, h.packets]
    have := hcount x hx
    exact fun hnil => by rw [List.replicate_eq_nil_iff] at hnil; omega
  have hc₀ : c ≠ 0 := by
    rintro rfl
    have := (h.steady.mem 0).mp hmem
    revert this
    decide +kernel
  obtain ⟨hask, -⟩ := scan_calm rfl hunder hdq.scan
  have hcontends : ∀ x, x ≠ 0 → Contends x s.queue r := fun x hx => ⟨hdemand x hx, hask x⟩
  obtain ⟨pre, d, post, p, ps, ht⟩ := hdq.turn hr rfl h.steady.only hmem (hcontends c hc₀)
    fun _ => by rw [h.refilled]; exact hd
  have hcpre : c ∉ pre := ht.passed c (hcontends c hc₀) fun _ => by rw [h.refilled]; exact hd
  have hsplit : ring = pre ++ d :: post := h.active.symm.trans ht.split
  have hdpre : d ∉ pre := by
    have hnd := hr.nodup 0
    rw [ht.split] at hnd
    exact fun hm => (List.nodup_append.mp hnd).2.2 d hm d List.mem_cons_self rfl
  have hpackets := ht.packets
  rw [h.packets] at hpackets
  have hp : p = debtPacket ∧ ps = List.replicate (count d - 1) debtPacket := by
    cases hn : count d with
    | zero => simp [hn] at hpackets
    | succ n =>
      rw [hn, List.replicate_succ] at hpackets
      obtain ⟨rfl, rfl⟩ := List.cons.inj hpackets
      exact ⟨rfl, rfl⟩
  obtain ⟨rfl, rfl⟩ := hp
  have ho : o = some debtPacket := by
    rcases hdq.sends with ⟨hn, -⟩ | ⟨d', p', ps', t, hd', hps', rfl, -⟩
    · simp [Scan.chosen, ht.eligible] at hn
    · obtain rfl : d = d' := by simpa [Scan.chosen, ht.eligible] using hd'
      exact congrArg some (List.cons.inj (hps'.symm.trans ht.packets)).1
  have hcredit : (q.cls d).bytesAlloc = debtCredit credit d - 3 := by
    rw [ht.bytes, if_neg hdpre, if_pos rfl, h.refilled]
    rfl
  have he : (sized debtClasses).Enabled s (T + 30, .callback) := by
    refine ⟨⟨?_, ?_⟩, trivial⟩
    · have hclock := h.clock
      change s.clock ≤ T + 30
      linarith
    · change 0 < s.outstanding
      rw [h.outstanding]
      exact Nat.one_pos
  have hs : (sized debtClasses).step s (T + 30, .callback) =
      .ok { s with clock := T + 30, queue := q, outstanding := 1 } := by
    have hdeque : s.queue.deque debtClasses (T + 30) = .ok (some debtPacket, q) := by
      rw [hdq.deque, ho]
    change resume debtClasses { s with clock := T + 30, outstanding := s.outstanding - 1 }
      (T + 30) = _
    unfold resume
    simp only [hdeque, h.outstanding, Bind.bind, Except.bind]
  refine ⟨pre, d, post, _, hsplit, hcpre, by rw [← h.refilled]; exact ht.credit,
    ⟨h.steady.step rfl he hs, by linarith, le_rfl, h.intr, rfl, ?_, fun y => ?_, fun y => ?_,
      fun y => ?_⟩, ?_⟩
  · change q.active 0 = _
    rw [ht.active, hcredit]
  · change (q.cls y).bytesAlloc = _
    have hmem : (pre.any fun x => decide (x = y)) = true ↔ y ∈ pre := by simp
    rw [ht.bytes, h.refilled, h.bytes]
    simp only [hmem]
    rfl
  · change (q.sub y).packets = _
    rw [ht.sub]
    by_cases hy : y = d
    · subst hy
      rw [Function.update_self, Function.update_self]
    · rw [Function.update_of_ne hy, Function.update_of_ne hy]
      exact h.packets y
  · have htimes := hdq.times hr rfl hunder ht.eligible ht.packets rfl y
    by_cases hy : y = d
    · subst hy
      rw [if_pos rfl] at htimes
      exact (h.calm y).sent htimes
    · rw [if_neg hy] at htimes
      exact (h.calm y).later htimes
  · have hv : scanOf debtClasses (s, (T + 30, .callback)) = some r :=
      scanOf_of_callsDeque (x := (T + 30, .callback)) trivial hdq.scan
    have hb := Serves.one he hs fun x hx v hv' => by
      obtain rfl := Option.some.inj (hv.symm.trans hv')
      exact hcontends x hx
    have hbytes : ∀ x, CBQSystem.bytes debtClasses x (s, (T + 30, .callback)) =
        if x = d then 3 else 0 := by
      intro x
      rw [CBQSystem.bytes, hv]
      exact ht.sentBytes x
    rwa [hbytes, hbytes] at hb

theorem Pattern.congr {ring' : List (Fin 3)} {credit' : Fin 3 → ℤ} {count' : Fin 3 → ℕ}
    (h : Pattern T ring credit count s) (hring : ring = ring') (hcredit : ∀ c, credit c = credit' c)
    (hcount : ∀ c, count c = count' c) : Pattern T ring' credit' count' s := by
  obtain rfl := hring
  obtain rfl := funext hcredit
  obtain rfl := funext hcount
  exact h

/-- The class that sends is the first one of the ring. -/
theorem eq_of_split_first {pre post : List (Fin 3)} {a b d : Fin 3} (hs : [a, b] = pre ++ d :: post)
    (ha : a ∉ pre) : pre = [] ∧ a = d ∧ post = [b] := by
  cases pre with
  | nil =>
    obtain ⟨rfl, rfl⟩ := List.cons.inj hs
    exact ⟨rfl, rfl, rfl⟩
  | cons x pre =>
    obtain ⟨rfl, -⟩ := List.cons.inj hs
    exact absurd List.mem_cons_self ha

/-- The class that sends is the second one of the ring. -/
theorem eq_of_split_second {pre post : List (Fin 3)} {a b d : Fin 3}
    (hs : [a, b] = pre ++ d :: post) (hb : b ∉ pre) (ha : a ≠ d) :
    pre = [a] ∧ b = d ∧ post = [] := by
  cases pre with
  | nil => exact absurd (List.cons.inj hs).1 ha
  | cons x pre =>
    obtain ⟨rfl, htail⟩ := List.cons.inj hs
    cases pre with
    | nil =>
      obtain ⟨hbd, hpost⟩ := List.cons.inj htail
      exact ⟨rfl, hbd, hpost.symm⟩
    | cons y pre =>
      obtain ⟨hby, -⟩ := List.cons.inj htail
      exact absurd (hby ▸ List.mem_cons_of_mem a List.mem_cons_self) hb

/-- Both classes send their weight's worth of packets, but class 1 has been visited twice, as its
debt of 2 bytes is forgiven at the second visit. -/
theorem Pattern.period (h : Pattern T [1, 2] (fun _ => 0) (fun c => if c = 0 then 0 else 1) s) :
    ∃ s', Pattern (T + 90) [1, 2] (fun _ => 0) (fun c => if c = 0 then 0 else 1) s' ∧
      Serves s 3 6 s' := by
  obtain ⟨s₁, h₁, hs₁⟩ := h.arrival (c := 1) (by decide)
  obtain ⟨s₂, h₂, hs₂⟩ := h₁.arrival (c := 2) (by decide)
  obtain ⟨s₃, h₃, hs₃⟩ := h₂.arrival (c := 2) (by decide)
  obtain ⟨pre, d, post, s₄, hsplit, hpre, -, h₄, hs₄⟩ :=
    h₃.callback (c := 1) (by decide) (by decide) (by decide)
  obtain ⟨rfl, rfl, rfl⟩ := eq_of_split_first hsplit hpre
  have h₄' : Pattern (T + 30) [2, 1] (fun c => if c = 1 then -2 else 0)
      (fun c => if c = 0 then 0 else if c = 1 then 1 else 3) s₄ :=
    h₄.congr (by decide) (by decide) (by decide)
  obtain ⟨pre, d, post, s₅, hsplit, hpre, -, h₅, hs₅⟩ :=
    h₄'.callback (c := 2) (by decide) (by decide) (by decide)
  obtain ⟨rfl, rfl, rfl⟩ := eq_of_split_first hsplit hpre
  have h₅' : Pattern (T + 30 + 30) [1, 2] (fun c => if c = 1 then -2 else 0)
      (fun c => if c = 0 then 0 else if c = 1 then 1 else 2) s₅ :=
    h₅.congr (by decide) (by decide) (by decide)
  obtain ⟨pre, d, post, s₆, hsplit, hpre, hd, h₆, hs₆⟩ :=
    h₅'.callback (c := 2) (by decide) (by decide) (by decide)
  have hne : 1 ≠ d := by
    rintro rfl
    exact absurd hd (by decide)
  obtain ⟨rfl, rfl, rfl⟩ := eq_of_split_second hsplit hpre hne
  have h₆' : Pattern (T + 90) [1, 2] (fun _ => 0) (fun c => if c = 0 then 0 else 1) s₆ := by
    have hT : T + 90 = T + 30 + 30 + 30 := by ring
    rw [hT]
    exact h₆.congr (by decide) (by decide) (by decide)
  exact ⟨s₆, h₆', ((((hs₁.trans hs₂).trans hs₃).trans hs₄).trans hs₅).trans hs₆⟩

/-- The difference of the normalised services grows with every period. -/
theorem Pattern.periods (n : ℕ)
    (h : Pattern T [1, 2] (fun _ => 0) (fun c => if c = 0 then 0 else 1) s) :
    ∃ t, Serves s (3 * n) (6 * n) t := by
  induction n generalizing T s with
  | zero => exact ⟨s, [], .nil s, fun _ _ _ hr => by simp at hr, rfl, rfl⟩
  | succ n ih =>
    obtain ⟨s', h', hs'⟩ := h.period
    obtain ⟨t, ht⟩ := ih h'
    refine ⟨t, ?_⟩
    have := hs'.trans ht
    push_cast
    convert this using 1 <;> ring

/-- After one packet of class 1 and two of class 2. -/
theorem debtQueue_pattern : ∃ s, (sized debtClasses).Reachable s ∧
    Pattern 91 [1, 2] (fun _ => 0) (fun c => if c = 0 then 0 else 1) s := by
  obtain ⟨ts, s, hp, hs⟩ := Machine.Path.exists_of_trace (M := sized debtClasses) debtQueue
    [(1, .arrival 1 debtPacket), (1, .arrival 1 debtPacket), (1, .arrival 2 debtPacket),
      (1, .arrival 2 debtPacket), (1, .arrival 2 debtPacket), (31, .intr), (61, .callback),
      (91, .callback)]
    (fun _ s => decide (s.clock ≤ 91 ∧ s.intr = false ∧ s.outstanding = 1 ∧
      s.queue.active 0 = [1, 2] ∧ (∀ c, (s.queue.cls c).bytesAlloc = 0) ∧
      (∀ c, (s.queue.sub c).packets =
        List.replicate (if c = 0 then 0 else 1) debtPacket) ∧
      ∀ c, (s.queue.cls c).undertime = 0 ∧ 0 ≤ (s.queue.cls c).avgidle ∧
        (s.queue.cls c).lastTime ≤ 91 + 3)) (by decide +kernel)
  obtain ⟨hclock, hintr, hout, hact, hbytes, hpackets, hcalm⟩ := of_decide_eq_true hs
  have hsteady := (hp.throughout_of_step debtQueue_steady fun _ _ _ h he hs => h.step rfl he hs).2
  exact ⟨s, hp.reachable debtQueue_reachable, hsteady, by norm_num, hclock, hintr, hout, hact,
    hbytes, hpackets, fun c => ⟨(hcalm c).1, (hcalm c).2.1, (hcalm c).2.2⟩⟩

end CBQSystem

open CBQSystem CBQueue in
/-- The classes 1 and 2, with the weights 1 and 3, are backlogged and permitted on every visit, yet
class 1 sends 3 bytes while class 2 sends 6. -/
theorem wrr_unfair : ¬ ∃ B : ℚ, ∀ s t ts, (sized debtClasses).Reachable s →
    (sized debtClasses).Path s ts t → (∀ n, n ≠ 0 → s.queue.active n = []) →
    ContendsOn debtClasses 1 ts → ContendsOn debtClasses 2 ts →
    |((ts.map (bytes debtClasses 1)).sum / s.queue.weight debtClasses 1 : ℚ) -
      (ts.map (bytes debtClasses 2)).sum / s.queue.weight debtClasses 2| ≤ B := by
  rintro ⟨B, hB⟩
  obtain ⟨s, hr, h⟩ := debtQueue_pattern
  obtain ⟨n, hn⟩ := exists_nat_gt B
  obtain ⟨t, ts, hp, hc, h₁, h₂⟩ := h.periods n
  have hbound := hB s t ts hr hp h.steady.only (hc 1 (by decide)) (hc 2 (by decide))
  rw [h₁, h₂, h.steady.weight, h.steady.weight, weight_debtQueue, weight_debtQueue] at hbound
  have hdiff : ((3 * n : ℤ) / debtWeight 1 : ℚ) - (6 * n : ℤ) / debtWeight 2 = n := by
    have hw : debtWeight 1 = 1 ∧ debtWeight 2 = 3 := by decide
    rw [hw.1, hw.2]
    push_cast
    ring
  rw [hdiff, abs_of_nonneg (Nat.cast_nonneg n)] at hbound
  linarith

end Ns2XPass
