import Mathlib.Tactic.Linarith
import Ns2XPass.Queue.CBQ

/-! # What a scan of the classes finds

A scan changes the limits and the credits of the classes only. It ends at a
class that has something to send and is permitted, or it has refused every class
that has something to send.
-/

namespace Ns2XPass

namespace CBQueue

variable {C : Type} {cfg : CBQConfig C} {now : ℚ} {s s' t : CBQueue C}
  {r r' r₁ r₂ : Scan C} {c d : C} {cs : List C} {V V' : C → Prop} {D D' : Prop} {p : Packet}
  {body : C → Scan C → Scan C} {f : CBQClassState → CBQClassState}

/-! ## What stays -/

/-- Limits and credits aside, the queue is the same. -/
structure Kept (s s' : CBQueue C) : Prop where
  sub : s'.sub = s.sub
  active : s'.active = s.active
  maxprio : s'.maxprio = s.maxprio
  pendingPkt : s'.pendingPkt = s.pendingPkt
  blocked : s'.blocked = s.blocked
  unblockOnResume : s'.unblockOnResume = s.unblockOnResume
  M : s'.M = s.M

namespace Kept

@[refl] theorem refl (s : CBQueue C) : Kept s s := ⟨rfl, rfl, rfl, rfl, rfl, rfl, rfl⟩

theorem trans (h : Kept s s') (h' : Kept s' t) : Kept s t where
  sub := h'.sub.trans h.sub
  active := h'.active.trans h.active
  maxprio := h'.maxprio.trans h.maxprio
  pendingPkt := h'.pendingPkt.trans h.pendingPkt
  blocked := h'.blocked.trans h.blocked
  unblockOnResume := h'.unblockOnResume.trans h.unblockOnResume
  M := h'.M.trans h.M

theorem demand (h : Kept s s') (c : C) : s'.demand c = s.demand c := by
  rw [CBQueue.demand, CBQueue.demand, h.sub]

theorem weight (h : Kept s s') (c : C) : s'.weight cfg c = s.weight cfg c := by
  rw [CBQueue.weight, CBQueue.weight, h.M]

theorem lend (s : CBQueue C) (d : C) : Kept s (s.lend d) := ⟨rfl, rfl, rfl, rfl, rfl, rfl, rfl⟩

theorem toplevel (s : CBQueue C) (n : ℕ) : Kept s { s with toplevel := n } :=
  ⟨rfl, rfl, rfl, rfl, rfl, rfl, rfl⟩

theorem toplevelDeparture (h : s.toplevelDeparture cfg c now = .ok s') : Kept s s' := by
  unfold CBQueue.toplevelDeparture at h
  split at h
  · simp at h
  · split at h
    · split at h <;> obtain rfl := Except.ok.inj h
      · exact Kept.toplevel s _
      · exact Kept.toplevel s _
    · obtain rfl := Except.ok.inj h
      exact Kept.refl s

theorem toplevelArrival (s : CBQueue C) (c : C) : Kept s (s.toplevelArrival cfg c now) := by
  unfold CBQueue.toplevelArrival
  split
  · split
    · exact Kept.toplevel s 1
    · split
      · exact Kept.refl s
      · split
        · exact Kept.toplevel s 2
        · exact Kept.refl s
  · exact Kept.refl s

end Kept

theorem lend_cls (s : CBQueue C) (d : C) : (s.lend d).cls = s.cls := rfl

/-- A class below its limit stays below its limit. -/
def Under (now : ℚ) (s s' : CBQueue C) : Prop :=
  ∀ x, (s.cls x).undertime < now → (s'.cls x).undertime < now

theorem Under.trans (h : Under now s s') (h' : Under now s' t) : Under now s t :=
  fun x hx => h' x (h x hx)

/-! ## The outcome of a scan -/

/-- A scan that visits the classes `V`. If it permits none to send, it has refused each of them that
has something to send, or else `D` holds. -/
structure Outcome (cfg : CBQConfig C) (now : ℚ) (V : C → Prop) (D : Prop) (r r' : Scan C) :
    Prop where
  kept : Kept r.queue r'.queue
  under : Under now r.queue r'.queue
  first : r'.first = r.first ∨ ∃ c, V c ∧ r'.first = some c ∧ r.queue.demand c = true
  firstSome : r.first.isSome → r'.first.isSome
  found : r'.eligible = none ∨ ∃ c, V c ∧ r'.eligible = some c ∧ r.queue.demand c = true ∧
    r'.queue.lastLender.isSome
  refused : r'.eligible = none → ∀ c, V c → r.queue.demand c = true →
    (cfg.mayBorrow c = true → r'.first.isSome) ∧ ((r.queue.cls c).undertime < now → D)

namespace Outcome

theorem refl (h : r.eligible = none) : Outcome cfg now (fun _ => False) D r r where
  kept := Kept.refl _
  under _ := id
  first := .inl rfl
  firstSome := id
  found := .inl h
  refused _ _ hc := absurd hc id

theorem mono (h : Outcome cfg now V D r r') (hV : ∀ c, V c ↔ V' c) (hD : D → D') :
    Outcome cfg now V' D' r r' := by
  obtain rfl : V = V' := funext fun c => propext (hV c)
  exact { h with refused := fun he c hc hd =>
    ⟨(h.refused he c hc hd).1, fun hu => hD ((h.refused he c hc hd).2 hu)⟩ }

/-- What two scans after each other have found. -/
theorem trans (h : Outcome cfg now V D r r₁) (h' : Outcome cfg now V' D' r₁ r₂)
    (he : r₁.eligible = none) : Outcome cfg now (fun c => V c ∨ V' c) (D ∨ D') r r₂ where
  kept := h.kept.trans h'.kept
  under := h.under.trans h'.under
  first := by
    rcases h'.first with hf | ⟨c, hc, hf, hd⟩
    · rw [hf]
      rcases h.first with hf | ⟨c, hc, hf, hd⟩
      · exact .inl hf
      · exact .inr ⟨c, .inl hc, hf, hd⟩
    · exact .inr ⟨c, .inr hc, hf, (h.kept.demand c).symm.trans hd⟩
  firstSome hf := h'.firstSome (h.firstSome hf)
  found := by
    rcases h'.found with hf | ⟨c, hc, hf, hd, hl⟩
    · exact .inl hf
    · exact .inr ⟨c, .inr hc, hf, (h.kept.demand c).symm.trans hd, hl⟩
  refused he' c hc hd := by
    rcases hc with hc | hc
    · have hr := h.refused he c hc hd
      exact ⟨fun hb => h'.firstSome (hr.1 hb), fun hu => .inl (hr.2 hu)⟩
    · have hr := h'.refused he' c hc ((h.kept.demand c).trans hd)
      exact ⟨hr.1, fun hu => .inr (hr.2 (h.under c hu))⟩

/-- A second round over the same classes refuses those that were below their limits before. -/
theorem again (h : Outcome cfg now V D r r₁) (h' : Outcome cfg now V D' r₁ r₂)
    (he : r₁.eligible = none) : Outcome cfg now V D' r r₂ := by
  have ht := h.trans h' he
  have hfirst := ht.first
  have hfound := ht.found
  simp only [or_self] at hfirst hfound
  exact {
    kept := ht.kept
    under := ht.under
    first := hfirst
    firstSome := ht.firstSome
    found := hfound
    refused := fun he' c hc hd => ⟨(ht.refused he' c (.inl hc) hd).1, fun hu =>
      (h'.refused he' c hc ((h.kept.demand c).trans hd)).2 (h.under c hu)⟩ }

end Outcome

/-- A visit of one class has an outcome. -/
def Visits (cfg : CBQConfig C) (now : ℚ) (D : Scan C → Scan C → Prop)
    (body : C → Scan C → Scan C) : Prop :=
  ∀ c r, r.eligible = none → Outcome cfg now (· = c) (D r (body c r)) r (body c r)

theorem remember_first_some (h : r.first.isSome) : (r.remember cfg c).first.isSome := by
  obtain ⟨a, ha⟩ := Option.isSome_iff_exists.mp h
  simp [Scan.remember, ha]

theorem remember_first_of_mayBorrow (h : cfg.mayBorrow c = true) :
    (r.remember cfg c).first.isSome := by
  unfold Scan.remember
  cases r.first <;> simp [h]

theorem remember_first (cfg : CBQConfig C) (r : Scan C) (c : C) :
    (r.remember cfg c).first = r.first ∨ (r.remember cfg c).first = some c := by
  unfold Scan.remember
  cases r.first with
  | some a => exact .inl (by simp)
  | none =>
    by_cases hb : cfg.mayBorrow c = true
    · exact .inr (by simp [hb])
    · exact .inl (by simp [hb])

/-- The inner loop visits all classes of the ring, or stops at an eligible one. -/
theorem Visits.ringScan {D : Scan C → Scan C → Prop} (hb : Visits cfg now D body)
    (hD : ∀ c cs r, D r (body c r) ∨ D (body c r) (ringScan body cs (body c r)) →
      D r (CBQueue.ringScan body cs (body c r)))
    (cs : List C) (r : Scan C) (he : r.eligible = none) :
    Outcome cfg now (· ∈ cs) (D r (CBQueue.ringScan body cs r)) r (CBQueue.ringScan body cs r) := by
  induction cs generalizing r with
  | nil => exact (Outcome.refl he).mono (fun c => by simp) id
  | cons c cs ih =>
    have hv := hb c r he
    unfold CBQueue.ringScan
    by_cases hf : (body c r).eligible.isSome = true
    · simp only [hf, if_true]
      exact { hv with
        first := hv.first.imp id fun ⟨d, hd, h⟩ => ⟨d, hd ▸ List.mem_cons_self, h⟩
        found := hv.found.imp id fun ⟨d, hd, h⟩ => ⟨d, hd ▸ List.mem_cons_self, h⟩
        refused := fun h => by simp [h] at hf }
    · simp only [hf, if_false, Bool.false_eq_true]
      have he' : (body c r).eligible = none := by simpa using hf
      exact (hv.trans (ih _ he') he').mono (fun d => by simp) (hD c cs r)

theorem Outcome.setDeficit {n : ℕ} (h : Outcome cfg now V D { r with deficit := n } r') :
    Outcome cfg now V D r r' := { h with }

variable [DecidableEq C]

namespace Kept

theorem setCls (s : CBQueue C) (c : C) (f : CBQClassState → CBQClassState) :
    Kept s (s.setCls c f) := ⟨rfl, rfl, rfl, rfl, rfl, rfl, rfl⟩

theorem setBytes (s : CBQueue C) (c : C) (n : ℤ) : Kept s (s.setBytes c n) := Kept.setCls s c _

theorem delayed (s : CBQueue C) (c : C) : Kept s (s.delayed cfg c now) := by
  unfold CBQueue.delayed
  split
  · exact Kept.setCls s c _
  · exact Kept.refl s

theorem sendPermitted (h : s.sendPermitted cfg c now = some s') : Kept s s' := by
  unfold CBQueue.sendPermitted at h
  split at h
  · obtain rfl := Option.some.inj h
    exact (Kept.setCls s c _).trans (Kept.lend _ _)
  · split at h
    · obtain ⟨d, -, rfl⟩ := Option.map_eq_some_iff.mp h
      exact Kept.lend s d
    · simp at h

theorem update (s : CBQueue C) (c : C) (p : Packet) : Kept s (s.update cfg c now p) := by
  have h : ∀ (ds : List C) (s : CBQueue C),
      Kept s (ds.foldl (fun s d => s.updateOne cfg d now p) s) := by
    intro ds
    induction ds with
    | nil => exact fun s => Kept.refl s
    | cons d ds ih => exact fun s => (Kept.setCls s d _).trans (ih _)
  exact h _ s

end Kept

/-! ## One class -/

theorem cls_setCls (s : CBQueue C) (c d : C) (f : CBQClassState → CBQClassState) :
    (s.setCls c f).cls d = if d = c then f (s.cls d) else s.cls d := by
  unfold setCls
  split
  · next h => subst h; exact Function.update_self ..
  · next h => exact Function.update_of_ne h _ _

@[simp] theorem undertime_setBytes (s : CBQueue C) (c d : C) (n : ℤ) :
    ((s.setBytes c n).cls d).undertime = (s.cls d).undertime := by
  rw [setBytes, cls_setCls]
  split <;> rfl

theorem under_setBytes (s : CBQueue C) (c : C) (n : ℤ) : Under now s (s.setBytes c n) := by
  intro x hx
  rwa [undertime_setBytes]

theorem under_delayed (h : ¬ (s.cls c).undertime < now) : Under now s (s.delayed cfg c now) := by
  intro x hx
  unfold delayed
  split
  · rw [cls_setCls]
    split
    · next hxc => exact absurd hx (hxc ▸ h)
    · exact hx
  · exact hx

theorem sendPermitted_of_under (cfg : CBQConfig C) (h : (s.cls c).undertime < now) :
    ∃ s', s.sendPermitted cfg c now = some s' := by
  unfold sendPermitted
  rw [if_pos h]
  exact ⟨_, rfl⟩

theorem not_under_of_refused (h : s.sendPermitted cfg c now = none) :
    ¬ (s.cls c).undertime < now := by
  intro hlt
  obtain ⟨s', hs⟩ := sendPermitted_of_under cfg hlt
  rw [hs] at h
  simp at h

/-- What permission changes: who lends, and that the class is no longer delayed. -/
theorem sendPermitted_changes (h : s.sendPermitted cfg c now = some s') :
    s'.lastLender.isSome ∧ ∀ x, (s'.cls x).undertime = (s.cls x).undertime ∧
      (s'.cls x).bytesAlloc = (s.cls x).bytesAlloc := by
  unfold sendPermitted at h
  split at h
  · obtain rfl := Option.some.inj h
    refine ⟨rfl, fun x => ?_⟩
    rw [lend_cls, cls_setCls]
    split <;> exact ⟨rfl, rfl⟩
  · split at h
    · obtain ⟨d, -, rfl⟩ := Option.map_eq_some_iff.mp h
      exact ⟨rfl, fun x => ⟨rfl, rfl⟩⟩
    · simp at h

theorem visits_visit : Visits cfg now (fun _ _ => False) (visit cfg now) := by
  intro c r he
  unfold visit
  split
  · next hd =>
    cases hs : r.queue.sendPermitted cfg c now with
    | some s =>
      obtain ⟨hl, hcls⟩ := sendPermitted_changes hs
      exact {
        kept := Kept.sendPermitted hs
        under := fun x hx => by
          change (s.cls x).undertime < now
          rwa [(hcls x).1]
        first := by
          rcases remember_first cfg r c with hf | hf
          · exact .inl hf
          · exact .inr ⟨c, rfl, hf, hd⟩
        firstSome := remember_first_some
        found := .inr ⟨c, rfl, rfl, hd, hl⟩
        refused := fun h => by simp at h }
    | none =>
      exact {
        kept := Kept.delayed r.queue c
        under := under_delayed (not_under_of_refused hs)
        first := by
          rcases remember_first cfg r c with hf | hf
          · exact .inl hf
          · exact .inr ⟨c, rfl, hf, hd⟩
        firstSome := remember_first_some
        found := .inl he
        refused := by
          rintro - x rfl hd
          exact ⟨remember_first_of_mayBorrow, fun hu => not_under_of_refused hs hu⟩ }
  · next hd =>
    exact {
      kept := Kept.refl _
      under := fun _ => id
      first := .inl rfl
      firstSome := id
      found := .inl he
      refused := by
        rintro - x rfl hd'
        exact absurd hd' hd }

/-- A class is short of credit, which a further round will not ask for. -/
def Short (r r' : Scan C) : Prop := r.deficit < 2 ∧ r'.deficit = 1

theorem refill_queue (cfg : CBQConfig C) (r : Scan C) (c : C) : ∃ n,
    (r.refill cfg c).queue = r.queue.setBytes c n := by
  unfold Scan.refill
  split
  · exact ⟨_, rfl⟩
  · refine ⟨(r.queue.cls c).bytesAlloc, ?_⟩
    unfold setBytes setCls
    rw [Function.update_eq_self]

theorem refill_eligible (r : Scan C) (c : C) : (r.refill cfg c).eligible = r.eligible := by
  unfold Scan.refill; split <;> rfl

theorem refill_first (r : Scan C) (c : C) : (r.refill cfg c).first = r.first := by
  unfold Scan.refill; split <;> rfl

theorem refill_deficit (cfg : CBQConfig C) (r : Scan C) (c : C) :
    (r.refill cfg c).deficit = r.deficit := by
  unfold Scan.refill; split <;> rfl

theorem refill_asked (r : Scan C) (c : C) : (r.refill cfg c).asked = r.asked := by
  unfold Scan.refill; split <;> rfl

/-- The three ways in which a visit of the weighted round robin ends without having found a class,
and the one in which it has found one. -/
theorem wrrVisit_cases (cfg : CBQConfig C) (now : ℚ) (c : C) (r : Scan C) :
    (r.queue.demand c = false ∧ wrrVisit cfg now c r = (r.refill cfg c).clear c) ∨
    (r.queue.demand c = true ∧ (r.refill cfg c).queue.sendPermitted cfg c now = none ∧
      wrrVisit cfg now c r = (((r.refill cfg c).remember cfg c).refuse cfg now c).clear c) ∨
    ∃ s, r.queue.demand c = true ∧ (r.refill cfg c).queue.sendPermitted cfg c now = some s ∧
      ((¬ (0 < (s.cls c).bytesAlloc ∨ 1 < r.deficit) ∧ wrrVisit cfg now c r =
          { ((r.refill cfg c).remember cfg c).permit c s with deficit := 1 }.clear c) ∨
        (0 < (s.cls c).bytesAlloc ∨ 1 < r.deficit) ∧ wrrVisit cfg now c r =
          { ((r.refill cfg c).remember cfg c).permit c s with eligible := some c }) := by
  have hdem : (r.refill cfg c).queue.demand c = r.queue.demand c := by
    obtain ⟨n, hn⟩ := refill_queue cfg r c
    rw [hn]
    exact (Kept.setBytes _ _ _).demand c
  have hdef : ∀ s, (((r.refill cfg c).remember cfg c).permit c s).deficit = r.deficit :=
    fun s => refill_deficit cfg r c
  unfold wrrVisit
  simp only [hdem, hdef]
  cases hd : r.queue.demand c with
  | false => exact .inl ⟨rfl, rfl⟩
  | true =>
    right
    cases hs : (r.refill cfg c).queue.sendPermitted cfg c now with
    | none => exact .inl ⟨rfl, rfl, rfl⟩
    | some s =>
      refine .inr ⟨s, rfl, rfl, ?_⟩
      by_cases hb : 0 < (s.cls c).bytesAlloc ∨ 1 < r.deficit
      · exact .inr ⟨hb, by simp only [if_pos hb, if_true]⟩
      · exact .inl ⟨hb, by simp only [if_neg hb, if_true]⟩

theorem under_refill (cfg : CBQConfig C) (r : Scan C) (c : C) : Under now r.queue
    (r.refill cfg c).queue := by
  obtain ⟨n, hn⟩ := refill_queue cfg r c
  rw [hn]
  exact under_setBytes _ _ _

theorem under_of_refill {x : C} (h : (r.queue.cls x).undertime < now) :
    ((r.refill cfg c).queue.cls x).undertime < now := under_refill cfg r c x h

theorem kept_refill (cfg : CBQConfig C) (r : Scan C) (c : C) : Kept r.queue
    (r.refill cfg c).queue := by
  obtain ⟨n, hn⟩ := refill_queue cfg r c
  rw [hn]
  exact Kept.setBytes _ _ _

theorem visits_wrrVisit : Visits cfg now Short (wrrVisit cfg now) := by
  intro c r he
  have hk := kept_refill cfg r c
  have hu : Under now r.queue (r.refill cfg c).queue := under_refill cfg r c
  have hfirst : ∀ {f : Option C}, f = ((r.refill cfg c).remember cfg c).first →
      r.queue.demand c = true →
        f = r.first ∨ ∃ d, d = c ∧ f = some d ∧ r.queue.demand d = true := by
    rintro f rfl hd
    rcases remember_first cfg (r.refill cfg c) c with hf | hf
    · exact .inl (hf.trans (refill_first r c))
    · exact .inr ⟨c, rfl, hf, hd⟩
  have hsome : r.first.isSome → ((r.refill cfg c).remember cfg c).first.isSome := fun h =>
    remember_first_some (by rwa [refill_first])
  rcases wrrVisit_cases cfg now c r with ⟨hd, hv⟩ | ⟨hd, hs, hv⟩ |
    ⟨s, hd, hs, ⟨hb, hv⟩ | ⟨hb, hv⟩⟩
  · rw [hv]
    exact {
      kept := hk.trans (Kept.setBytes _ _ _)
      under := hu.trans (under_setBytes _ _ _)
      first := .inl (refill_first r c)
      firstSome := fun h => by rwa [show ((r.refill cfg c).clear c).first = r.first from
        refill_first r c]
      found := .inl ((refill_eligible r c).trans he)
      refused := by
        rintro - x rfl hd'
        exact absurd (hd.symm.trans hd') Bool.false_ne_true }
  · rw [hv]
    exact {
      kept := (hk.trans (Kept.delayed _ _)).trans (Kept.setBytes _ _ _)
      under := (hu.trans (under_delayed (not_under_of_refused hs))).trans (under_setBytes _ _ _)
      first := hfirst rfl hd
      firstSome := hsome
      found := .inl ((refill_eligible r c).trans he)
      refused := by
        rintro - x rfl hd'
        exact ⟨remember_first_of_mayBorrow, fun hx =>
          absurd (under_of_refill hx) (not_under_of_refused hs)⟩ }
  · rw [hv]
    obtain ⟨hl, hcls⟩ := sendPermitted_changes hs
    have hus : Under now (r.refill cfg c).queue s := fun x hx => by rwa [(hcls x).1]
    exact {
      kept := (hk.trans (Kept.sendPermitted hs)).trans (Kept.setBytes _ _ _)
      under := (hu.trans hus).trans (under_setBytes _ _ _)
      first := hfirst rfl hd
      firstSome := hsome
      found := .inl ((refill_eligible r c).trans he)
      refused := by
        rintro - x rfl hd'
        exact ⟨remember_first_of_mayBorrow, fun _ =>
          ⟨by rw [not_or] at hb; omega, rfl⟩⟩ }
  · rw [hv]
    obtain ⟨hl, hcls⟩ := sendPermitted_changes hs
    have hus : Under now (r.refill cfg c).queue s := fun x hx => by rwa [(hcls x).1]
    exact {
      kept := hk.trans (Kept.sendPermitted hs)
      under := hu.trans hus
      first := hfirst rfl hd
      firstSome := hsome
      found := .inr ⟨c, rfl, rfl, hd, hl⟩
      refused := fun h => by simp at h }

/-! ## Whole scans -/

theorem wrrVisit_deficit (cfg : CBQConfig C) (now : ℚ) (c : C) (r : Scan C) :
    (wrrVisit cfg now c r).deficit = r.deficit ∨
    r.deficit < 2 ∧ (wrrVisit cfg now c r).deficit = 1 := by
  have hdef := refill_deficit cfg r c
  rcases wrrVisit_cases cfg now c r with ⟨-, hv⟩ | ⟨-, -, hv⟩ |
    ⟨s, -, -, ⟨hb, hv⟩ | ⟨-, hv⟩⟩
  · exact .inl (by rw [hv]; exact hdef)
  · exact .inl (by rw [hv]; exact hdef)
  · exact .inr ⟨by rw [not_or] at hb; omega, by rw [hv]; rfl⟩
  · exact .inl (by rw [hv]; exact hdef)

theorem wrrRing_deficit (cfg : CBQConfig C) (now : ℚ) (cs : List C) (r : Scan C) :
    (ringScan (wrrVisit cfg now) cs r).deficit = r.deficit ∨
      r.deficit < 2 ∧ (ringScan (wrrVisit cfg now) cs r).deficit = 1 := by
  induction cs generalizing r with
  | nil => exact .inl rfl
  | cons c cs ih =>
    have hv := wrrVisit_deficit cfg now c r
    have hr := ih (wrrVisit cfg now c r)
    unfold ringScan
    by_cases hf : (wrrVisit cfg now c r).eligible.isSome = true
    · simp only [hf, if_true]
      exact hv
    · simp only [hf, if_false, Bool.false_eq_true]
      omega

theorem wrrRing_outcome (cfg : CBQConfig C) (now : ℚ) (cs : List C) (r : Scan C)
    (he : r.eligible = none) :
    Outcome cfg now (· ∈ cs) (Short r (ringScan (wrrVisit cfg now) cs r)) r
      (ringScan (wrrVisit cfg now) cs r) := by
  apply visits_wrrVisit.ringScan _ cs r he
  intro c cs r h
  have hv := wrrVisit_deficit cfg now c r
  have hr := wrrRing_deficit cfg now cs (wrrVisit cfg now c r)
  unfold Short at h ⊢
  omega

/-- The rounds at one priority end, and the last one asks for no credit. -/
theorem wrrRounds_outcome (cfg : CBQConfig C) (now : ℚ) (cs : List C) (r : Scan C)
    (he : r.eligible = none) :
    ∃ r', wrrRounds cfg now cs 2 r = .ok r' ∧ Outcome cfg now (· ∈ cs) False r r' := by
  have h₁ := wrrRing_outcome cfg now cs r he
  have hl := wrrRing_deficit cfg now cs r
  unfold wrrRounds
  generalize hr₁ : ringScan (wrrVisit cfg now) cs r = r₁ at h₁ hl
  by_cases hf : r₁.eligible.isSome = true
  · refine ⟨r₁, by simp only [hf, if_true], ?_⟩
    exact { h₁ with refused := fun h => by simp [h] at hf }
  · have he₁ : r₁.eligible = none := by simpa using hf
    by_cases hdef : r₁.deficit = 1
    · have h₂ := wrrRing_outcome cfg now cs { r₁ with deficit := 2 } he₁
      have hl₂ := wrrRing_deficit cfg now cs { r₁ with deficit := 2 }
      generalize hr₂ : ringScan (wrrVisit cfg now) cs { r₁ with deficit := 2 } = r₂ at h₂ hl₂
      have hdef₂ : r₂.deficit = 2 := hl₂.elim id fun h => absurd h.1 (Nat.lt_irrefl 2)
      refine ⟨r₂, ?_, (h₁.again h₂.setDeficit he₁).mono (fun _ => Iff.rfl)
        fun h => Nat.lt_irrefl 2 h.1⟩
      simp only [hf, hdef, if_true, if_false, Bool.false_eq_true]
      unfold wrrRounds
      simp only [hr₂, hdef₂, OfNat.ofNat_ne_one, if_false, ite_self]
    · refine ⟨r₁, by simp only [hf, hdef, if_false, Bool.false_eq_true], ?_⟩
      exact h₁.mono (fun _ => Iff.rfl) fun h => hdef h.2

theorem scanPrio_outcome (cfg : CBQConfig C) (now : ℚ) (i : ℕ) (r : Scan C)
    (he : r.eligible = none) :
    ∃ r', scanPrio cfg now i r = .ok r' ∧
      Outcome cfg now (· ∈ r.queue.active i) False r r' := by
  unfold scanPrio
  split
  · obtain ⟨r', hr, h⟩ := wrrRounds_outcome cfg now (r.queue.active i) { r with deficit := 0 } he
    exact ⟨r', hr, h.setDeficit⟩
  · exact ⟨_, rfl, visits_visit.ringScan (fun _ _ _ h => h.elim id id) _ r he⟩

theorem scanPrios_outcome (cfg : CBQConfig C) (now : ℚ) (is : List ℕ) (r : Scan C)
    (he : r.eligible = none) :
    ∃ r', scanPrios cfg now is r = .ok r' ∧
      Outcome cfg now (fun c => ∃ i ∈ is, c ∈ r.queue.active i) False r r' := by
  induction is generalizing r with
  | nil => exact ⟨r, rfl, (Outcome.refl he).mono (fun c => by simp) id⟩
  | cons i is ih =>
    unfold scanPrios
    split
    · next hnil =>
      obtain ⟨r', hr, h⟩ := ih r he
      refine ⟨r', hr, h.mono (fun c => ?_) id⟩
      simp [hnil]
    · obtain ⟨r₁, hr₁, h₁⟩ := scanPrio_outcome cfg now i r he
      rw [hr₁]
      by_cases hf : r₁.eligible.isSome = true
      · refine ⟨r₁, if_pos hf, ?_⟩
        exact { h₁ with
          first := h₁.first.imp id fun ⟨d, hd, h⟩ => ⟨d, ⟨i, List.mem_cons_self, hd⟩, h⟩
          found := h₁.found.imp id fun ⟨d, hd, h⟩ => ⟨d, ⟨i, List.mem_cons_self, hd⟩, h⟩
          refused := fun h => by simp [h] at hf }
      · have he₁ : r₁.eligible = none := by simpa using hf
        obtain ⟨r₂, hr₂, h₂⟩ := ih r₁ he₁
        refine ⟨r₂, (if_neg hf).trans hr₂, (h₁.trans h₂ he₁).mono (fun c => ?_) (·.elim id id)⟩
        rw [h₁.kept.active]
        simp

/-- A scan ends, having visited the classes of all priorities unless it has found one. -/
theorem scan_outcome (cfg : CBQConfig C) (now : ℚ) (s : CBQueue C) : ∃ r, s.scan cfg now = .ok r ∧
    Outcome cfg now (fun c => ∃ i : ℕ, i ≤ s.maxprio ∧ c ∈ s.active i) False { queue := s } r := by
  obtain ⟨r, hr, h⟩ := scanPrios_outcome cfg now (List.range (s.maxprio + 1).toNat)
    { queue := s, first := none, eligible := none } rfl
  refine ⟨r, hr, h.mono (fun c => ?_) id⟩
  simp only [List.mem_range]
  constructor
  · rintro ⟨i, hi, hc⟩
    exact ⟨i, by omega, hc⟩
  · rintro ⟨i, hi, hc⟩
    exact ⟨i, by omega, hc⟩

end CBQueue

end Ns2XPass
