import Mathlib.Algebra.Order.BigOperators.Group.List
import Ns2XPass.Library.Ahead
import Ns2XPass.Queue.DRR

/-! # The quanta of deficit round robin

Only the flow at the head of the ring has its turn, and a flow never keeps the
bytes of a whole packet when it is passed. A drop that takes the last packet of
the flow on its turn breaks this.
-/

namespace Ns2XPass

namespace DRR

variable {α : Type} [DecidableEq α] {ip : α → IpHeader} {max : ℤ} {s s' : DRR α} {p : α}
  {b c f g : ℕ} {ps : List α} {contents : ℕ → List α} {as : List ℕ} {v : ℤ}

/-- The bytes that the flows have left, and the flow that has its turn. -/
structure Level (max : ℤ) (s : DRR α) (as : List ℕ) : Prop where
  turn : ∀ b, s.turn b = true → s.curr = some b
  lower : ∀ b ∈ as, 0 ≤ s.deficitCounter b
  upper : ∀ b ∈ as, s.deficitCounter b < max + if s.turn b then s.quantum else 0

/-- The flows in the order in which they are given their next quantum. -/
def due (s : DRR α) : List ℕ → List ℕ
  | [] => []
  | c :: as => if s.turn c then as ++ [c] else c :: as

/-- What the flow `f` has been given more than the flow `g`, a flow that is behind the other one
being a quantum ahead of it. -/
def Owes (s : DRR α) (as : List ℕ) (f g : ℕ) (v : ℤ) : Prop :=
  Ahead f g (s.due as) ∧ v = s.deficitCounter g - s.deficitCounter f ∨
    Ahead g f (s.due as) ∧ v = s.quantum + s.deficitCounter g - s.deficitCounter f

omit [DecidableEq α] in
theorem due_eq_self (h : ∀ b ∈ as, s.turn b = false) : s.due as = as := by
  cases as with
  | nil => rfl
  | cons c as => rw [due, h c List.mem_cons_self]; rfl

omit [DecidableEq α] in
theorem mem_due : b ∈ s.due as ↔ b ∈ as := by
  cases as with
  | nil => rfl
  | cons c as =>
    rw [due]
    split
    · simp [or_comm]
    · rfl

omit [DecidableEq α] in
theorem Owes.exists (hf : f ∈ as) (hg : g ∈ as) (hfg : f ≠ g) : ∃ v, s.Owes as f g v := by
  rcases Ahead.total (mem_due.mpr hf) (mem_due.mpr hg) hfg with h | h
  · exact ⟨_, .inl ⟨h, rfl⟩⟩
  · exact ⟨_, .inr ⟨h, rfl⟩⟩

/-! ## One visit -/

omit [DecidableEq α] in
theorem grant_turn (s : DRR α) (c : ℕ) : (s.grant c).turn = Function.update s.turn c true := by
  unfold grant
  split
  · next h => rw [← h, Function.update_eq_self]
  · rfl

omit [DecidableEq α] in
theorem grant_deficit (s : DRR α) (c : ℕ) : (s.grant c).deficitCounter =
    Function.update s.deficitCounter c
      (s.deficitCounter c + if s.turn c then 0 else s.quantum) := by
  unfold grant
  split <;> simp

omit [DecidableEq α] in
@[simp] theorem grant_curr (s : DRR α) (c : ℕ) : (s.grant c).curr = s.curr := by
  unfold grant
  split <;> rfl

omit [DecidableEq α] in
@[simp] theorem grant_quantum (s : DRR α) (c : ℕ) : (s.grant c).quantum = s.quantum := by
  unfold grant
  split <;> rfl

omit [DecidableEq α] in
@[simp] theorem grant_size (s : DRR α) (c : ℕ) : (s.grant c).size = s.size := by
  unfold grant
  split <;> rfl

omit [DecidableEq α] in
@[simp] theorem grant_drr (s : DRR α) (c : ℕ) : (s.grant c).drr = s.drr := by
  unfold grant
  split <;> rfl

omit [DecidableEq α] in
/-- A flow other than the first one does not have its turn. -/
theorem Level.turn_eq_false (hl : Level max s as) (hc : s.curr = some c) (hb : b ≠ c) :
    s.turn b = false := by
  rw [Bool.eq_false_iff]
  intro ht
  exact hb (Option.some.inj ((hl.turn b ht).symm.trans hc))

omit [DecidableEq α] in
theorem Level.grant (hl : Level max s as) (hc : s.curr = some c) (hq : 1 ≤ s.quantum) :
    Level max (s.grant c) as := by
  refine ⟨?_, ?_, ?_⟩
  · intro b hb
    rw [grant_curr]
    by_cases hbc : b = c
    · rw [hbc, hc]
    · rw [grant_turn, Function.update_of_ne hbc] at hb
      exact hl.turn b hb
  · intro b hb
    have := hl.lower b hb
    rw [grant_deficit]
    by_cases hbc : b = c
    · subst hbc
      rw [Function.update_self]
      split <;> omega
    · rwa [Function.update_of_ne hbc]
  · intro b hb
    have := hl.upper b hb
    rw [grant_deficit, grant_turn, grant_quantum]
    by_cases hbc : b = c
    · subst hbc
      rw [Function.update_self, Function.update_self]
      cases ht : s.turn b <;> simp only [ht] at this ⊢ <;> simp at this ⊢ <;> omega
    · rwa [Function.update_of_ne hbc, Function.update_of_ne hbc]

omit [DecidableEq α] in
/-- A flow that is passed has fewer bytes left than its first packet has. -/
theorem Level.pass (hl : Level max s (c :: as)) (hc : s.curr = some c)
    (hlt : s.deficitCounter c < max) : Level max (s.pass c) (as ++ [c]) := by
  have hturn : ∀ b, (s.pass c).turn b = false := by
    intro b
    by_cases hbc : b = c
    · subst hbc
      exact Function.update_self ..
    · exact (Function.update_of_ne hbc _ _).trans (hl.turn_eq_false hc hbc)
  have hmem : ∀ b ∈ as ++ [c], b ∈ c :: as := by
    simp only [List.mem_append, List.mem_cons, List.not_mem_nil]
    tauto
  refine ⟨fun b hb => ?_, fun b hb => hl.lower b (hmem b hb), fun b hb => ?_⟩
  · rw [hturn b] at hb
    exact absurd hb Bool.false_ne_true
  · rw [hturn b]
    have := hl.upper b (hmem b hb)
    change s.deficitCounter b < max + 0
    by_cases hbc : b = c
    · subst hbc
      omega
    · rw [hl.turn_eq_false hc hbc] at this
      exact this

omit [DecidableEq α] in
/-- Giving the first flow its quantum puts it behind all others. -/
theorem Owes.grant (h : s.Owes (c :: as) f g v) (hd : (c :: as).Nodup) :
    (s.grant c).Owes (c :: as) f g v := by
  have hdue : (s.grant c).due (c :: as) = as ++ [c] := by
    rw [due, grant_turn, Function.update_self, if_pos rfl]
  unfold Owes at h ⊢
  rw [hdue, grant_deficit, grant_quantum]
  cases ht : s.turn c with
  | true => simpa [due, ht] using h
  | false =>
    simp only [due, ht, Bool.false_eq_true, if_false] at h ⊢
    rcases h with ⟨h, rfl⟩ | ⟨h, rfl⟩
    · have hfg := h.ne hd
      by_cases hcf : c = f
      · subst hcf
        refine .inr ⟨.last ((List.mem_cons.mp h.mem_right).resolve_left hfg.symm), ?_⟩
        rw [Function.update_self, Function.update_of_ne hfg.symm]
        omega
      · have hcg : c ≠ g := by
          rintro rfl
          exact Ahead.not_first hd h
        refine .inl ⟨h.turn hcf, ?_⟩
        rw [Function.update_of_ne (Ne.symm hcf), Function.update_of_ne hcg.symm]
    · have hgf := h.ne hd
      by_cases hcg : c = g
      · subst hcg
        refine .inl ⟨.last ((List.mem_cons.mp h.mem_right).resolve_left hgf.symm), ?_⟩
        rw [Function.update_self, Function.update_of_ne hgf.symm]
        omega
      · have hcf : c ≠ f := by
          rintro rfl
          exact Ahead.not_first hd h
        refine .inr ⟨h.turn hcg, ?_⟩
        rw [Function.update_of_ne (Ne.symm hcg), Function.update_of_ne hcf.symm]

omit [DecidableEq α] in
theorem Owes.pass (h : s.Owes (c :: as) f g v) (hl : Level max s (c :: as)) (hc : s.curr = some c)
    (hturn : s.turn c = true) : (s.pass c).Owes (as ++ [c]) f g v := by
  have hdue : (s.pass c).due (as ++ [c]) = s.due (c :: as) := by
    rw [due_eq_self, due, if_pos hturn]
    rintro b -
    by_cases hbc : b = c
    · subst hbc
      exact Function.update_self ..
    · exact (Function.update_of_ne hbc _ _).trans (hl.turn_eq_false hc hbc)
  unfold Owes
  rw [hdue]
  exact h

omit [DecidableEq α] in
/-- A flow that pays for a packet owes its bytes to the others. -/
theorem Owes.serve (h : s.Owes (c :: as) f g v) (hd : (c :: as).Nodup) (hl : Level max s (c :: as))
    (hc : s.curr = some c) (hturn : s.turn c = true) (n : ℤ)
    (hdeficit : s'.deficitCounter = Function.update s.deficitCounter c
      (if ps = [] then 0 else s.deficitCounter c - n))
    (ht : s'.turn = (if ps = [] then Function.update s.turn c false else s.turn))
    (hq : s'.quantum = s.quantum) (hf : ps = [] → f ≠ c) (hg : ps = [] → g ≠ c) :
    s'.Owes (if ps = [] then as else c :: as) f g
      (v + ((if f = c then n else 0) - if g = c then n else 0)) := by
  unfold Owes at h ⊢
  rw [due, if_pos hturn] at h
  rw [hq]
  by_cases hnil : ps = []
  · have hfc := hf hnil
    have hgc := hg hnil
    have hfalse : ∀ b ∈ as, s'.turn b = false := by
      rintro b hb
      have hbc : b ≠ c := ne_of_mem_of_not_mem hb (List.nodup_cons.mp hd).1
      rw [ht, if_pos hnil, Function.update_of_ne hbc]
      exact hl.turn_eq_false hc hbc
    rw [if_pos hnil, due_eq_self hfalse, hdeficit, if_neg hfc, if_neg hgc,
      Function.update_of_ne hfc, Function.update_of_ne hgc, sub_zero, add_zero]
    have herase : ∀ a b, a ≠ c → b ≠ c → Ahead a b (as ++ [c]) → Ahead a b as := by
      intro a b ha hb h
      simpa using h.erase ha.symm hb.symm
    exact h.imp (And.imp_left (herase f g hfc hgc)) (And.imp_left (herase g f hgc hfc))
  · have hdue : s'.due (c :: as) = as ++ [c] := by
      rw [due, ht, if_neg hnil, if_pos hturn]
    rw [if_neg hnil, hdue, hdeficit, if_neg hnil]
    have hd' : (as ++ [c]).Nodup := by
      rw [← List.concat_eq_append]
      exact (List.nodup_cons.mp hd).2.concat (List.nodup_cons.mp hd).1
    have hfg : f ≠ g := h.elim (fun h => h.1.ne hd') fun h => (h.1.ne hd').symm
    have hpaid : Function.update s.deficitCounter c (s.deficitCounter c - n) g -
        Function.update s.deficitCounter c (s.deficitCounter c - n) f =
        s.deficitCounter g - s.deficitCounter f +
          ((if f = c then n else 0) - if g = c then n else 0) := by
      by_cases hfc : f = c
      · subst hfc
        rw [Function.update_self, Function.update_of_ne hfg.symm, if_pos rfl, if_neg hfg.symm]
        omega
      · by_cases hgc : g = c
        · subst hgc
          rw [Function.update_self, Function.update_of_ne hfg, if_pos rfl, if_neg hfg]
          omega
        · rw [Function.update_of_ne hfc, Function.update_of_ne hgc, if_neg hfc, if_neg hgc]
          omega
    refine h.imp (And.imp_right ?_) (And.imp_right ?_) <;> intro hv <;> omega

/-! ## Serving -/

theorem serveFrom_succ (h : Holds ip max s contents (c :: as)) (hc : contents c = p :: ps)
    (n : ℕ) : serveFrom (n + 1) s =
      if s.size p ≤ (s.grant c).deficitCounter c then ((s.grant c).serve p c).map fun s => (p, s)
      else serveFrom n ((s.grant c).pass c) := by
  have hcurr : s.curr = some c := h.onRing.head
  have hhead : ((s.grant c).drr.queue c).head = some p := by
    rw [(h.grant c).queues.head_eq, hc]
    rfl
  simp only [serveFrom, hcurr, hhead, grant_size]

/-- The bytes that the flows may still be given before one of them is served, and one more step for
the flow that has its turn. -/
def slack (s : DRR α) (as : List ℕ) : ℕ :=
  (as.map fun b => (s.bytecnt - s.deficitCounter b).toNat).sum +
    if ∃ c, s.curr = some c ∧ s.turn c then 1 else 0

omit [DecidableEq α] in
@[simp] theorem grant_bytecnt (s : DRR α) (c : ℕ) : (s.grant c).bytecnt = s.bytecnt := by
  unfold grant
  split <;> rfl

omit [DecidableEq α] in
theorem Holds.slack_lt_steps (h : Holds ip max s contents as) (hl : Level max s as) :
    s.slack as < s.steps := by
  have hsum : (as.map fun b => (s.bytecnt - s.deficitCounter b).toNat).sum ≤
      as.length * s.bytecnt.toNat := by
    have := List.sum_le_card_nsmul (as.map fun b => (s.bytecnt - s.deficitCounter b).toNat)
      s.bytecnt.toNat ?_
    · simpa using this
    · simp only [List.mem_map]
      rintro n ⟨b, hb, rfl⟩
      have := hl.lower b hb
      omega
  have hlen : s.flwcnt.toNat = as.length := by rw [h.flwcnt, Int.toNat_natCast]
  unfold slack steps
  rw [hlen]
  split <;> omega

omit [DecidableEq α] in
/-- A flow that is passed has used up some of its slack. -/
theorem Holds.slack_pass (h : Holds ip max s contents (c :: as)) (hl : Level max s (c :: as))
    (hc : contents c = p :: ps) (hlt : (s.grant c).deficitCounter c < s.size p) :
    ((s.grant c).pass c).slack (as ++ [c]) < s.slack (c :: as) := by
  have hcurr : s.curr = some c := h.onRing.head
  have hca : c ∉ as := (List.nodup_cons.mp h.onRing.spells.nodup).1
  have hle := h.size_le_bytecnt (p := p) (b := c) (by simp [hc])
  have hq := h.quantum
  have hnone : ¬ ∃ d, ((s.grant c).pass c).curr = some d ∧ ((s.grant c).pass c).turn d = true := by
    rintro ⟨d, -, hd⟩
    change Function.update (s.grant c).turn c false d = true at hd
    by_cases hdc : d = c
    · subst hdc
      simp at hd
    · rw [Function.update_of_ne hdc, grant_turn, Function.update_of_ne hdc,
        hl.turn_eq_false hcurr hdc] at hd
      exact Bool.false_ne_true hd
  have hrest : as.map (fun b => (((s.grant c).pass c).bytecnt -
      ((s.grant c).pass c).deficitCounter b).toNat) =
        as.map fun b => (s.bytecnt - s.deficitCounter b).toNat := by
    apply List.map_congr_left
    intro b hb
    change ((s.grant c).bytecnt - (s.grant c).deficitCounter b).toNat = _
    rw [grant_bytecnt, grant_deficit, Function.update_of_ne (ne_of_mem_of_not_mem hb hca)]
  have hself : ((s.grant c).pass c).bytecnt - ((s.grant c).pass c).deficitCounter c =
      s.bytecnt - (s.grant c).deficitCounter c := by
    change (s.grant c).bytecnt - (s.grant c).deficitCounter c = _
    rw [grant_bytecnt]
  unfold slack
  rw [List.map_append, hrest, List.map_singleton, hself, List.sum_append, List.sum_singleton,
    List.map_cons, List.sum_cons, if_neg hnone]
  rw [grant_deficit, Function.update_self] at hlt ⊢
  cases ht : s.turn c with
  | true =>
    simp only [ht, if_true] at hlt ⊢
    rw [if_pos ⟨c, hcurr, ht⟩]
    omega
  | false =>
    simp only [ht, Bool.false_eq_true, if_false] at hlt ⊢
    omega

/-- The flow that is served after some others have been passed. -/
structure Serves (ip : α → IpHeader) (max : ℤ) (s : DRR α) (contents : ℕ → List α) (c : ℕ)
    (as : List ℕ) (p : α) (ps : List α) (s' : DRR α) : Prop where
  holds : Holds ip max s contents (c :: as)
  level : Level max s (c :: as)
  first : contents c = p :: ps
  enough : s.size p ≤ (s.grant c).deficitCounter c
  result : (s.grant c).serve p c = .ok s'

/-- The loop passes flows until one of them has enough bytes, and keeps what passing a flow
keeps. -/
theorem Holds.serveFrom {R : DRR α → List ℕ → Prop} (h : Holds ip max s contents as)
    (hl : Level max s as) (hne : as ≠ []) (hs : R s as)
    (hR : ∀ s c as p ps, Holds ip max s contents (c :: as) → Level max s (c :: as) →
      contents c = p :: ps → (s.grant c).deficitCounter c < s.size p → R s (c :: as) →
      R ((s.grant c).pass c) (as ++ [c])) :
    ∃ s₁ c as₁ p ps s', Serves ip max s₁ contents c as₁ p ps s' ∧ R s₁ (c :: as₁) ∧
      ∀ n, s.slack as < n → serveFrom n s = .ok (p, s') := by
  induction hm : s.slack as using Nat.strong_induction_on generalizing s as with
  | _ m ih =>
    obtain ⟨c, as, rfl⟩ := List.exists_cons_of_ne_nil hne
    obtain ⟨p, ps, hps⟩ := List.exists_cons_of_ne_nil ((h.onRing.mem c).mp List.mem_cons_self)
    have hcurr : s.curr = some c := h.onRing.head
    rcases le_or_gt (s.size p) ((s.grant c).deficitCounter c) with hle | hlt
    · obtain ⟨s', hserve, -⟩ := (h.grant c).serve hps
      refine ⟨s, c, as, p, ps, s', ⟨h, hl, hps, hle, hserve⟩, hs, fun n hn => ?_⟩
      obtain ⟨n, rfl⟩ : ∃ k, n = k + 1 := ⟨n - 1, by omega⟩
      rw [serveFrom_succ h hps, if_pos hle, hserve]
      rfl
    · have hpass := h.slack_pass hl hps hlt
      have hmax : (s.grant c).deficitCounter c < max :=
        hlt.trans_le (h.sizes c p (by simp [hps])).2
      obtain ⟨s₁, c₁, as₁, p₁, ps₁, s', hserves, hs₁, hn₁⟩ :=
        ih _ (hm ▸ hpass) (h.grant c).pass ((hl.grant hcurr h.quantum).pass (by rwa [grant_curr]) hmax)
          (by simp) (hR s c as p ps h hl hps hlt hs) rfl
      refine ⟨s₁, c₁, as₁, p₁, ps₁, s', hserves, hs₁, fun n hn => ?_⟩
      obtain ⟨n, rfl⟩ : ∃ k, n = k + 1 := ⟨n - 1, by omega⟩
      rw [serveFrom_succ h hps, if_neg (not_le.mpr hlt)]
      exact hn₁ n (by omega)

omit [DecidableEq α] in
theorem Level.serve {n : ℤ} (hl : Level max s (c :: as)) (hd : (c :: as).Nodup)
    (hc : s.curr = some c) (hle : n ≤ s.deficitCounter c) (hn : 0 ≤ n)
    (hdeficit : s'.deficitCounter = Function.update s.deficitCounter c
      (if ps = [] then 0 else s.deficitCounter c - n))
    (ht : s'.turn = (if ps = [] then Function.update s.turn c false else s.turn))
    (hq : s'.quantum = s.quantum) (hcurr : ps ≠ [] → s'.curr = some c) :
    Level max s' (if ps = [] then as else c :: as) := by
  have hca := (List.nodup_cons.mp hd).1
  by_cases hnil : ps = []
  · have hturn : ∀ b, s'.turn b = false := by
      intro b
      rw [ht, if_pos hnil]
      by_cases hbc : b = c
      · rw [hbc, Function.update_self]
      · rw [Function.update_of_ne hbc]
        exact hl.turn_eq_false hc hbc
    rw [if_pos hnil]
    refine ⟨fun b hb => absurd hb (by rw [hturn b]; exact Bool.false_ne_true), ?_, ?_⟩
    · intro b hb
      rw [hdeficit, Function.update_of_ne (ne_of_mem_of_not_mem hb hca)]
      exact hl.lower b (List.mem_cons_of_mem c hb)
    · intro b hb
      have hbc := ne_of_mem_of_not_mem hb hca
      have := hl.upper b (List.mem_cons_of_mem c hb)
      rw [hl.turn_eq_false hc hbc] at this
      rwa [hdeficit, Function.update_of_ne hbc, hturn b]
  · rw [if_neg hnil]
    rw [if_neg hnil] at hdeficit ht
    refine ⟨fun b hb => ?_, fun b hb => ?_, fun b hb => ?_⟩
    · rw [ht] at hb
      rw [hcurr hnil, ← hc]
      exact hl.turn b hb
    · have := hl.lower b hb
      rw [hdeficit]
      by_cases hbc : b = c
      · subst hbc
        rw [Function.update_self]
        omega
      · rwa [Function.update_of_ne hbc]
    · have := hl.upper b hb
      rw [hdeficit, ht, hq]
      by_cases hbc : b = c
      · subst hbc
        rw [Function.update_self]
        omega
      · rwa [Function.update_of_ne hbc]

/-- The bytes of the flow `f` that a call takes from the queue. -/
def bytes (ip : α → IpHeader) (f : ℕ) (r : DRR α × QueueCall α) : ℤ :=
  match r.2 with
  | .enque _ => 0
  | .deque =>
    match r.1.deque with
    | .ok (some p, _) => if r.1.which ip p = f then r.1.size p else 0
    | _ => 0

theorem Holds.deque_nil (h : Holds ip max s contents []) : s.deque = .ok (none, s) := by
  rw [DRR.deque, if_pos (h.bytecnt_eq_zero.mpr rfl)]

/-- What one call of `deque` does when there are packets. -/
theorem Holds.deque (h : Holds ip max s contents as) (hl : Level max s as) (hne : as ≠ []) :
    ∃ p c ps s' as', contents c = p :: ps ∧ s.deque = .ok (some p, s') ∧
      (∀ n, s.steps ≤ n → DRR.serveFrom n s = .ok (p, s')) ∧
      Holds ip max s' (Function.update contents c ps) as' ∧ Level max s' as' ∧
      s'.quantum = s.quantum ∧ (ps ≠ [] → c ∈ as') ∧
      ∀ f g v, f ∈ as' → g ∈ as' → s.Owes as f g v →
        s'.Owes as' f g (v + (bytes ip f (s, .deque) - bytes ip g (s, .deque))) := by
  have hpass : ∀ (t : DRR α) (c : ℕ) (bs : List ℕ) (p : α) (ps : List α),
      Holds ip max t contents (c :: bs) → Level max t (c :: bs) → contents c = p :: ps →
      (t.grant c).deficitCounter c < t.size p →
      (t.quantum = s.quantum ∧ t.size = s.size ∧ ∀ f g v, s.Owes as f g v →
        t.Owes (c :: bs) f g v) →
      ((t.grant c).pass c).quantum = s.quantum ∧ ((t.grant c).pass c).size = s.size ∧
        ∀ f g v, s.Owes as f g v → ((t.grant c).pass c).Owes (bs ++ [c]) f g v := by
    rintro t c bs p ps ht htl hps - ⟨hq, hsize, ho⟩
    have hcurr : t.curr = some c := ht.onRing.head
    refine ⟨(grant_quantum t c).trans hq, (grant_size t c).trans hsize, fun f g v hv => ?_⟩
    exact ((ho f g v hv).grant ht.onRing.spells.nodup).pass (htl.grant hcurr ht.quantum)
      (by rwa [grant_curr]) (by rw [grant_turn, Function.update_self])
  obtain ⟨s₁, c, as₁, p, ps, s', hv, ⟨hq₁, hsize₁, howes⟩, hn⟩ := h.serveFrom (R := fun t bs =>
      t.quantum = s.quantum ∧ t.size = s.size ∧ ∀ f g v, s.Owes as f g v → t.Owes bs f g v)
    hl hne ⟨rfl, rfl, fun _ _ _ h => h⟩ hpass
  have hcurr : (s₁.grant c).curr = some c := by
    rw [grant_curr]
    exact hv.holds.onRing.head
  have hd := hv.holds.onRing.spells.nodup
  have hgl := hv.level.grant hv.holds.onRing.head hv.holds.quantum
  have hturn : (s₁.grant c).turn c = true := by rw [grant_turn, Function.update_self]
  obtain ⟨s'', hr, hs', hdef', hturn', hq', -⟩ := (hv.holds.grant c).serve hv.first
  obtain rfl : s' = s'' := Except.ok.inj (hv.result.symm.trans hr)
  rw [grant_size, hsize₁] at hdef'
  have henough := hv.enough
  rw [hsize₁] at henough
  have hsteps : ∀ n, s.steps ≤ n → DRR.serveFrom n s = .ok (p, s') := fun n hle =>
    hn n ((h.slack_lt_steps hl).trans_le hle)
  have hdeque : s.deque = .ok (some p, s') := by
    rw [DRR.deque, if_neg (mt h.bytecnt_eq_zero.mp hne), hsteps _ le_rfl]
    rfl
  have hp : p ∈ contents c := by rw [hv.first]; exact List.mem_cons_self
  have hbytes : ∀ f, bytes ip f (s, .deque) = if f = c then s.size p else 0 := by
    intro f
    simp only [bytes, hdeque, (h.home c p hp).1, eq_comm]
  refine ⟨p, c, ps, s', _, hv.first, hdeque, hsteps, hs', ?_, ?_, ?_, ?_⟩
  · refine hgl.serve hd hcurr henough (h.sizes c p hp).1.le hdef' hturn' hq' fun hnil => ?_
    rw [hs'.onRing.head, if_neg hnil]
    rfl
  · rw [hq', grant_quantum, hq₁]
  · intro hnil
    rw [if_neg hnil]
    exact List.mem_cons_self
  · intro f g v hf hg ho
    rw [hbytes, hbytes]
    refine ((howes f g v ho).grant hd).serve hd hgl hcurr hturn (s.size p) hdef' hturn' hq' ?_ ?_
    · rintro rfl rfl
      exact (List.nodup_cons.mp hd).1 (by simpa using hf)
    · rintro rfl rfl
      exact (List.nodup_cons.mp hd).1 (by simpa using hg)
/-! ## Dropping -/

/-- The next iteration of the loop of `enque` takes the last packet of the flow that has its
turn. -/
def losesTurn (s : DRR α) : Bool :=
  match s.getMaxflow with
  | .ok b => s.curr = some b && s.turn b && s.drr.pkts b = 1
  | .error _ => false

/-- No iteration of the loop takes the last packet of the flow that has its turn. -/
def sparesFrom : ℕ → DRR α → Bool
  | 0, _ => true
  | n + 1, s =>
    if s.blimit < s.bytecnt then
      !s.losesTurn && match s.dropOne with
        | .ok (_, s) => sparesFrom n s
        | .error _ => true
    else true

/-- The condition on a call. -/
def Spares (ip : α → IpHeader) (s : DRR α) : QueueCall α → Prop
  | .enque p =>
    match s.accept ip p with
    | .ok s => sparesFrom s.pktcnt.toNat s
    | .error _ => True
  | .deque => True

instance (s : DRR α) (x : QueueCall α) : Decidable (s.Spares ip x) :=
  match x with
  | .enque p => by
    unfold Spares
    dsimp only
    split <;> infer_instance
  | .deque => inferInstanceAs (Decidable True)

section Drop

variable (hd : Drops ip max s contents as b p ps s') (hl : Level max s as)
  (hlose : s.losesTurn = false) (h : Holds ip max s contents as)
include hd hl hlose h

/-- The flow that leaves the ring does not have its turn. -/
theorem Drops.turn_eq_false (hnil : ps = []) : s.turn b = false := by
  rw [Bool.eq_false_iff]
  intro ht
  have hpkts : s.drr.pkts b = 1 := by
    rw [h.queues.pkts, hd.first, hnil]
    rfl
  simp [losesTurn, hd.flow, hl.turn b ht, ht, hpkts] at hlose

theorem Drops.level : Level max s' (if ps = [] then as.filter (· ≠ b) else as) := by
  have hmem : ∀ c ∈ (if ps = [] then as.filter (· ≠ b) else as), c ∈ as := by
    intro c
    split
    · exact fun hc => List.mem_of_mem_filter hc
    · exact id
  refine ⟨fun c hc => ?_, fun c hc => ?_, fun c hc => ?_⟩
  · rw [hd.turn] at hc
    have hcurr := hl.turn c hc
    rw [h.onRing.head] at hcurr
    obtain ⟨bs, rfl⟩ := List.head?_eq_some_iff.mp hcurr
    rw [hd.holds.onRing.head]
    by_cases hnil : ps = []
    · have hcb : c ≠ b := by
        rintro rfl
        exact Bool.false_ne_true ((hd.turn_eq_false hl hlose h hnil).symm.trans hc)
      rw [if_pos hnil, List.filter_cons_of_pos (by simpa using hcb)]
      rfl
    · rw [if_neg hnil]
      rfl
  · rw [hd.deficit]
    exact hl.lower c (hmem c hc)
  · rw [hd.deficit, hd.turn, hd.quantum]
    exact hl.upper c (hmem c hc)

/-- A flow that leaves the ring does not change the order of the others. -/
theorem Drops.due_eq (hnil : ps = []) :
    s'.due (as.filter (· ≠ b)) = (s.due as).filter (· ≠ b) := by
  cases as with
  | nil => rfl
  | cons c as =>
    have hcurr : s.curr = some c := h.onRing.head
    by_cases hcb : c = b
    · subst hcb
      have hdue : s.due (c :: as) = c :: as := by
        rw [due, hd.turn_eq_false hl hlose h hnil]
        rfl
      rw [hdue]
      apply due_eq_self
      intro e he
      rw [hd.turn]
      by_cases hec : e = c
      · rw [hec]
        exact hd.turn_eq_false hl hlose h hnil
      · exact hl.turn_eq_false hcurr hec
    · rw [List.filter_cons_of_pos (by simpa using hcb), due, due, hd.turn]
      split
      · rw [List.filter_append, List.filter_singleton]
        simp [hcb]
      · rw [List.filter_cons_of_pos (by simpa using hcb)]

theorem Drops.owes (hf : f ∈ if ps = [] then as.filter (· ≠ b) else as)
    (hg : g ∈ if ps = [] then as.filter (· ≠ b) else as) (ho : s.Owes as f g v) :
    s'.Owes (if ps = [] then as.filter (· ≠ b) else as) f g v := by
  unfold Owes at ho ⊢
  rw [hd.deficit, hd.quantum]
  by_cases hnil : ps = []
  · rw [if_pos hnil] at hf hg ⊢
    rw [hd.due_eq hl hlose h hnil]
    have hfb := (List.mem_filter.mp hf).2
    have hgb := (List.mem_filter.mp hg).2
    exact ho.imp (And.imp_left (·.filter hfb hgb)) (And.imp_left (·.filter hgb hfb))
  · rw [if_neg hnil]
    have hdue : s'.due as = s.due as := by
      cases as with
      | nil => rfl
      | cons c as => rw [due, due, hd.turn]
    rwa [hdue]

end Drop

/-- The loop of `enque` when it does not take the last packet of the flow that has its turn. -/
theorem Holds.drops (h : Holds ip max s contents as) (hl : Level max s as)
    (hsp : sparesFrom s.pktcnt.toNat s = true) :
    ∃ qs s' contents' as', DRR.dropFrom s.pktcnt.toNat s = .ok (qs, s') ∧
      Holds ip max s' contents' as' ∧ Level max s' as' ∧
      s'.deficitCounter = s.deficitCounter ∧ s'.turn = s.turn ∧ s'.quantum = s.quantum ∧
      (∀ b ∈ as', b ∈ as) ∧
      ∀ f g v, f ∈ as' → g ∈ as' → s.Owes as f g v → s'.Owes as' f g v := by
  obtain ⟨qs, s', contents', as', m, hd, h', -, hl', hdef, ht, hq, hmem, ho⟩ :=
    h.dropFrom (R := fun n t _ bs => sparesFrom n t = true ∧ Level max t bs ∧
      t.deficitCounter = s.deficitCounter ∧ t.turn = s.turn ∧ t.quantum = s.quantum ∧
      (∀ b ∈ bs, b ∈ as) ∧ ∀ f g v, f ∈ bs → g ∈ bs → s.Owes as f g v → t.Owes bs f g v)
    (Int.self_le_toNat _) ⟨hsp, hl, rfl, rfl, rfl, fun _ => id, fun _ _ _ _ _ => id⟩
    fun n t cs bs b p ps t' ht hlt hd ⟨hsp, htl, hdef, hturn, hq, hmem, ho⟩ => by
      rw [sparesFrom, if_pos hlt, hd.result, Bool.and_eq_true, Bool.not_eq_true'] at hsp
      have hsub : ∀ e ∈ (if ps = [] then bs.filter (· ≠ b) else bs), e ∈ bs := by
        intro e
        split
        · exact fun he => List.mem_of_mem_filter he
        · exact id
      refine ⟨hsp.2, hd.level htl hsp.1 ht, hd.deficit.trans hdef, hd.turn.trans hturn,
        hd.quantum.trans hq, fun e he => hmem e (hsub e he), fun f g v hf hg hv => ?_⟩
      exact hd.owes htl hsp.1 ht hf hg (ho f g v (hsub f hf) (hsub g hg) hv)
  exact ⟨qs, s', contents', as', hd, h', hl', hdef, ht, hq, hmem, ho⟩

/-- What one call of `enque` does. -/
theorem Holds.enque (h : Holds ip max s contents as) (hl : Level max s as)
    (he : s.Enabled ip max (.enque p)) (hsp : s.Spares ip (.enque p)) :
    ∃ qs s' contents' as', s.enque ip p = .ok (qs, s') ∧ Holds ip max s' contents' as' ∧
      Level max s' as' ∧ s'.quantum = s.quantum ∧ s'.turn = s.turn ∧
      (∀ b ∈ as', if b ∈ as then s'.deficitCounter b = s.deficitCounter b
        else s'.deficitCounter b = 0) ∧
      ∀ f g v, f ∈ as → g ∈ as → f ∈ as' → g ∈ as' → s.Owes as f g v → s'.Owes as' f g v := by
  obtain ⟨s₁, ha, h₁, hdef₁, ht₁, hq₁, -⟩ := h.accept he
  have hpos : 0 < max := he.2.2.1.trans_le he.2.2.2
  have hempty := h.onRing.mem (s.which ip p)
  have hcurr₁ := h₁.onRing.head
  have hmem₁ : ∀ b, b ∈ (if contents (s.which ip p) = [] then as ++ [s.which ip p] else as) →
      b ∈ as ∨ b = s.which ip p ∧ b ∉ as := by
    intro b
    split
    · next hnil =>
      rw [List.mem_append, List.mem_singleton]
      rintro (hb | rfl)
      · exact .inl hb
      · exact .inr ⟨rfl, mt hempty.mp (not_not.mpr hnil)⟩
    · exact .inl
  -- The flow that joins the ring has no bytes left and does not have its turn.
  have hold : ∀ b ∈ as, s₁.deficitCounter b = s.deficitCounter b := by
    intro b hb
    rw [hdef₁]
    split
    · next hnil =>
      have : b ≠ s.which ip p := by
        rintro rfl
        exact hempty.mp hb hnil
      rw [Function.update_of_ne this]
    · rfl
  have hnew : ∀ b, b ∈ (if contents (s.which ip p) = [] then as ++ [s.which ip p] else as) →
      b ∉ as → s₁.deficitCounter b = 0 ∧ s.turn b = false := by
    intro b hb hnot
    obtain ⟨rfl, -⟩ := (hmem₁ b hb).resolve_left hnot
    refine ⟨?_, ?_⟩
    · rw [hdef₁, if_pos (not_not.mp (mt hempty.mpr hnot)), Function.update_self]
    · rw [Bool.eq_false_iff]
      intro ht
      have := (hl.turn _ ht).symm.trans h.onRing.head
      exact hnot (List.mem_of_mem_head? (by rw [← this]; rfl))
  have hl₁ : Level max s₁ (if contents (s.which ip p) = [] then as ++ [s.which ip p] else as) := by
    refine ⟨fun b hb => ?_, fun b hb => ?_, fun b hb => ?_⟩
    · rw [ht₁] at hb
      have hcurr := hl.turn b hb
      rw [h.onRing.head] at hcurr
      obtain ⟨bs, rfl⟩ := List.head?_eq_some_iff.mp hcurr
      rw [hcurr₁]
      split <;> rfl
    · by_cases hb' : b ∈ as
      · rw [hold b hb']
        exact hl.lower b hb'
      · rw [(hnew b hb hb').1]
    · rw [ht₁, hq₁]
      by_cases hb' : b ∈ as
      · rw [hold b hb']
        exact hl.upper b hb'
      · rw [(hnew b hb hb').1, (hnew b hb hb').2]
        simpa using hpos
  have hdue : (s.due as).Sublist
      (s₁.due (if contents (s.which ip p) = [] then as ++ [s.which ip p] else as)) := by
    cases as with
    | nil => exact List.nil_sublist _
    | cons c as =>
      split
      · rw [List.cons_append, due, due, ht₁]
        split
        · exact (List.sublist_append_left as _).append_right [c]
        · exact (List.sublist_append_left as _).cons_cons c
      · rw [due, due, ht₁]
  simp only [Spares, ha] at hsp
  obtain ⟨qs, s', contents', as', hd, h', hl', hdef, ht, hq, hmem, ho⟩ := h₁.drops hl₁ hsp
  refine ⟨qs, s', contents', as', ?_, h', hl', hq.trans hq₁, ht.trans ht₁, ?_, ?_⟩
  · simp only [DRR.enque, ha, Bind.bind, Except.bind]
    exact hd
  · intro b hb
    rw [hdef]
    split
    · next hb' => exact hold b hb'
    · next hb' => exact (hnew b (hmem b hb) hb').1
  · intro f g v hf hg hf' hg' hv
    apply ho f g v hf' hg'
    unfold Owes at hv ⊢
    rw [hold f hf, hold g hg, hq₁]
    exact hv.imp (And.imp_left (·.mono hdue)) (And.imp_left (·.mono hdue))

end DRR

end Ns2XPass
