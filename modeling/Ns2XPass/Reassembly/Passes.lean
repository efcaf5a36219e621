import Ns2XPass.Reassembly.Merging

/-! # The passes of adding

A pass of `add` deletes the blocks that lie within the new range and takes over
their flags. If there were any, the next pass merges it with what is left.
-/

namespace Ns2XPass

namespace ReassemblyQueue

variable {rq rq' rq'' : ReassemblyQueue} {as pre mid todo post stack stack' : List ℕ} {a b c n : ℕ}
  {s e : TcpSeq} {f f' flags : TcpFlag} {rqflags : RqFlag} {initcnt : ℤ}

/-- The block lies within the new range, and is deleted unless it is the same. -/
def dies (rq : ReassemblyQueue) (s e : TcpSeq) (a : ℕ) : Bool :=
  decide (s ≤ rq.startseq a ∧ rq.endseq a ≤ e ∧ rq.startseq a < e)

theorem dies_eq_true :
    rq.dies s e a = true ↔ s ≤ rq.startseq a ∧ rq.endseq a ≤ e ∧ rq.startseq a < e := by
  simp [dies]

/-- The blocks within the new range have been deleted, and their flags taken over. -/
structure Killed (rq : ReassemblyQueue) (as stack : List ℕ) (s e : TcpSeq) (f : TcpFlag)
    (rq' : ReassemblyQueue) (f' : TcpFlag) : Prop where
  listed : rq'.Listed (as.filter fun a => !rq.dies s e a) (stack.filter fun a => !rq.dies s e a)
  same : SameBlocks rq rq'
  pflags : rq'.pflags = rq.pflags
  flags : ∀ i, Has f' i ↔ Has f i ∨ ∃ a ∈ as, rq.dies s e a = true ∧ Has (rq.pflags a) i

theorem dies_congr (h : SameBlocks rq rq') : rq'.dies s e = rq.dies s e := by
  funext a
  rw [dies, h.startseq, h.endseq, dies]

/-- The loop over the blocks `todo` deletes those that lie within the new range. -/
theorem Listed.kill (h : rq.Listed (pre ++ todo ++ post) stack) (f : TcpFlag) (initcnt : ℤ)
    (altered : Bool) (hne : ∀ a ∈ todo, ¬ (s = rq.startseq a ∧ e = rq.endseq a))
    (hlt : ∀ a ∈ todo, rq.startseq a < e) (hrest : ∀ a ∈ pre ++ post, rq.dies s e a = false)
    (hn : todo.length < n) :
    ∃ rq' f' initcnt',
      kill s e post.head? n rq f initcnt altered (todo ++ post).head? =
        .ok (.done rq' f' initcnt' (altered || todo.any (rq.dies s e))) ∧
      Killed rq (pre ++ todo ++ post) stack s e f rq' f' := by
  induction todo generalizing rq pre n stack f initcnt altered with
  | nil =>
    obtain ⟨n, rfl⟩ : ∃ k, n = k + 1 := ⟨n - 1, by omega⟩
    have hmem : ∀ a ∈ pre ++ [] ++ post, rq.dies s e a = false := by simpa using hrest
    have hfilter : ∀ xs : List ℕ, (∀ a ∈ xs, a ∈ pre ++ [] ++ post) →
        xs.filter (fun a => !rq.dies s e a) = xs := fun xs hxs =>
      List.filter_eq_self.mpr fun a ha => by simp [hmem a (hxs a ha)]
    refine ⟨rq, f, initcnt, ?_, ⟨?_, ⟨rfl, rfl, rfl⟩, rfl, fun i => ?_⟩⟩
    · cases post with
      | nil => simp [ReassemblyQueue.kill]
      | cons q post => simp [ReassemblyQueue.kill]
    · rw [hfilter _ fun a => id, hfilter _ fun a ha => h.same.mem_iff.mp ha]
      exact h
    · refine ⟨.inl, fun hi => hi.resolve_right ?_⟩
      rintro ⟨a, ha, hd, -⟩
      simp [hmem a ha] at hd
  | cons r todo ih =>
    obtain ⟨n, rfl⟩ : ∃ k, n = k + 1 := ⟨n - 1, by omega⟩
    rw [List.length_cons] at hn
    have hlist : pre ++ r :: todo ++ post = pre ++ r :: (todo ++ post) := by simp
    have hlist' : pre ++ todo ++ post = pre ++ (todo ++ post) := by simp
    have hnext : rq.fifo.next r = (todo ++ post).head? := (hlist ▸ h.threaded.spells).next_eq
    have hq : post.head? ≠ some r := head?_ne_some h.threaded.nodup (by simp)
    have hr : (s ≤ rq.startseq r ∧ rq.endseq r ≤ e) ↔ rq.dies s e r = true := by
      have hre := hlt r List.mem_cons_self
      rw [dies_eq_true]
      tauto
    rw [List.cons_append, List.head?_cons, ReassemblyQueue.kill, if_neg hq,
      if_neg (hne r List.mem_cons_self), hnext]
    have hne := fun a ha => hne a (List.mem_cons_of_mem r ha)
    have hlt := fun a ha => hlt a (List.mem_cons_of_mem r ha)
    split_ifs with hin
    · rw [hr] at hin
      have h' : ((({ rq with total := rq.total - (rq.endseq r - rq.startseq r) }.fremove r).sremove
          r).deleteseginfo r).Listed (pre ++ todo ++ post) (stack.filter fun b => b ≠ r) := by
        rw [hlist']
        exact (hlist ▸ h).remove.congr rfl rfl rfl rfl
      obtain ⟨rq', f', initcnt', he, hk⟩ := ih h' (f ||| rq.pflags r) (initcnt + rq.cnt r) true hne
        hlt hrest (Nat.lt_of_succ_lt_succ hn)
      refine ⟨rq', f', initcnt', ?_, ⟨?_, ⟨hk.same.startseq, hk.same.endseq, hk.same.rcvNxt⟩,
        hk.pflags, fun i => ?_⟩⟩
      · rw [he, List.any_cons, hin, Bool.true_or, Bool.true_or, Bool.or_true]
      · have hfilter : (stack.filter fun b => b ≠ r).filter (fun a => !rq.dies s e a) =
            stack.filter fun a => !rq.dies s e a := by
          rw [List.filter_filter]
          refine List.filter_congr fun a _ => ?_
          by_cases har : a = r
          · simp [har, hin]
          · simp [har]
        have hl := hk.listed
        rw [hlist, List.filter_append, List.filter_cons_of_neg (by simp [hin]),
          ← List.filter_append, ← hlist', ← hfilter]
        exact hl
      · rw [hk.flags i, has_or]
        constructor
        · rintro ((hi | hi) | ⟨a, ha, hd, hi⟩)
          · exact .inl hi
          · exact .inr ⟨r, by simp, hin, hi⟩
          · refine .inr ⟨a, ?_, hd, hi⟩
            simp only [List.mem_append, List.mem_cons] at ha ⊢
            tauto
        · rintro (hi | ⟨a, ha, hd, hi⟩)
          · exact .inl (.inl hi)
          · by_cases har : a = r
            · exact .inl (.inr (har ▸ hi))
            · refine .inr ⟨a, ?_, hd, hi⟩
              simp only [List.mem_append, List.mem_cons] at ha ⊢
              tauto
    · rw [hr, Bool.not_eq_true] at hin
      have hlist'' : pre ++ r :: todo ++ post = pre ++ [r] ++ todo ++ post := by simp
      have hrest' : ∀ a ∈ pre ++ [r] ++ post, rq.dies s e a = false := fun a ha => by
        by_cases har : a = r
        · rw [har, hin]
        · refine hrest a ?_
          simp only [List.mem_append, List.mem_singleton] at ha ⊢
          tauto
      obtain ⟨rq', f', initcnt', he, hk⟩ := ih (hlist'' ▸ h) f initcnt altered hne hlt hrest'
        (Nat.lt_of_succ_lt_succ hn)
      rw [← hlist''] at hk
      refine ⟨rq', f', initcnt', ?_, hk⟩
      rw [he, List.any_cons, hin, Bool.false_or]

namespace Killed

variable (hk : Killed rq as stack s e f rq' f')
include hk

/-- The blocks that have been deleted touched the new range. -/
theorem mem_touching (hord : Ordered rq.startseq rq.endseq as) (ha : a ∈ as) :
    a ∈ rq.touching as s e ↔
      a ∈ rq'.touching (as.filter fun a => !rq.dies s e a) s e ∨ rq.dies s e a = true := by
  have hle := hord.le a ha
  simp only [ReassemblyQueue.mem_touching, List.mem_filter, hk.same.startseq, hk.same.endseq, ha,
    true_and, Bool.not_eq_true', ← Bool.not_eq_true, dies_eq_true]
  constructor
  · rintro ⟨hs, he⟩
    by_cases hd : s ≤ rq.startseq a ∧ rq.endseq a ≤ e ∧ rq.startseq a < e
    · exact .inr hd
    · exact .inl ⟨hd, hs, he⟩
  · rintro (⟨-, hs, he⟩ | ⟨hs, -, he⟩)
    · exact ⟨hs, he⟩
    · exact ⟨hs.trans hle, he.le⟩

theorem before_eq (hord : Ordered rq.startseq rq.endseq as) :
    rq'.before (as.filter fun a => !rq.dies s e a) s = rq.before as s := by
  rw [before, before, List.filter_filter, hk.same.endseq]
  refine List.filter_congr fun a ha => ?_
  have hle := hord.le a ha
  have hd : rq.endseq a < s → rq.dies s e a = false := fun hlt => by
    rw [← Bool.not_eq_true, dies_eq_true]
    exact fun hd => (hd.1.trans hle).not_gt hlt
  by_cases hlt : rq.endseq a < s
  · simp [hlt, hd hlt]
  · simp [hlt]

theorem behind_eq :
    rq'.behind (as.filter fun a => !rq.dies s e a) e = rq.behind as e := by
  rw [behind, behind, List.filter_filter, hk.same.startseq]
  refine List.filter_congr fun a _ => ?_
  have hd : e < rq.startseq a → rq.dies s e a = false := fun hlt => by
    rw [← Bool.not_eq_true, dies_eq_true]
    exact fun hd => hd.2.2.not_gt hlt
  by_cases hlt : e < rq.startseq a
  · simp [hlt, hd hlt]
  · simp [hlt]

theorem collects {lost : Option ℕ} {x : TcpFlag} (hord : Ordered rq.startseq rq.endseq as)
    (hlost : ∀ a ∈ lost, rq.dies s e a = false)
    (h : Collects rq' (rq'.touching (as.filter fun a => !rq.dies s e a) s e) f' lost x) :
    Collects rq (rq.touching as s e) f lost x := fun i => by
  rw [h i, hk.flags i, hk.pflags]
  constructor
  · rintro ((hi | ⟨a, ha, hd, hi⟩) | ⟨a, ha, hl, hi⟩)
    · exact .inl hi
    · refine .inr ⟨a, (hk.mem_touching hord ha).mpr (.inr hd), fun hl => ?_, hi⟩
      rw [hlost a hl] at hd
      exact Bool.false_ne_true hd
    · have has := (List.mem_filter.mp (ReassemblyQueue.mem_touching.mp ha).1).1
      exact .inr ⟨a, (hk.mem_touching hord has).mpr (.inl ha), hl, hi⟩
  · rintro (hi | ⟨a, ha, hl, hi⟩)
    · exact .inl (.inl hi)
    · have has := (ReassemblyQueue.mem_touching.mp ha).1
      rcases (hk.mem_touching hord has).mp ha with hm | hd
      · exact .inr ⟨a, hm, hl, hi⟩
      · exact .inl (.inr ⟨a, has, hd, hi⟩)

theorem survives (hse : s < e) (hb : b ∈ as.filter fun a => !rq.dies s e a)
    (h : rq'.Survives (as.filter fun a => !rq.dies s e a) s e b) : rq.Survives as s e b := by
  rw [Survives, hk.same.startseq, hk.same.endseq] at h
  rcases h with h | h | ⟨hbs, -, hall⟩ | ⟨hsb, hbe, hover, hnot⟩
  · exact .inl h
  · exact .inr (.inl h)
  · have hd : rq.dies s e b = true :=
      dies_eq_true.mpr ⟨hbs.ge, (hall b hb).trans hse.le, hbs.trans_lt hse⟩
    simp [hd] at hb
  · refine .inr (.inr (.inr ⟨hsb, hbe, hover, fun x hx hxs => ?_⟩))
    by_cases hd : rq.dies s e x = true
    · exact (dies_eq_true.mp hd).1.not_gt hxs.1
    · exact hnot x (by simp [hx, hd]) hxs

theorem eclipsed (h : rq'.Eclipsed (as.filter fun a => !rq.dies s e a) s e a) :
    rq.Eclipsed as s e a := by
  obtain ⟨hright, hover, p, hp, hleft⟩ := h
  rw [hk.same.startseq] at hright hover hleft
  rw [hk.same.endseq] at hover hleft
  exact ⟨hright, hover, p, (List.mem_filter.mp hp).1, hleft⟩

theorem unreported (h : rq'.Unreported (as.filter fun a => !rq.dies s e a) s e a) :
    rq.Unreported as s e a := by
  obtain ⟨⟨x, hx, hsx⟩, ⟨y, hy, hye⟩, hother, htakes⟩ := h
  rw [hk.same.startseq] at hye hother htakes
  rw [hk.same.endseq] at hsx hother htakes
  refine ⟨⟨x, (List.mem_filter.mp hx).1, hsx⟩, ⟨y, (List.mem_filter.mp hy).1, hye⟩, hother, ?_⟩
  rcases htakes with htakes | ⟨has, hsa, hall⟩ | ⟨hsa, hae, hea, hall⟩
  · exact .inl htakes
  · refine .inr (.inl ⟨has, hsa, fun x hx => ?_⟩)
    by_cases hd : rq.dies s e x = true
    · exact ⟨(dies_eq_true.mp hd).2.2, (dies_eq_true.mp hd).2.1⟩
    · exact hall x (by simp [hx, hd])
  · refine .inr (.inr ⟨hsa, hae, hea, fun x hx => ?_⟩)
    by_cases hd : rq.dies s e x = true
    · exact (dies_eq_true.mp hd).1
    · exact hall x (by simp [hx, hd])

/-- What the next pass does to the blocks that are left has the effect on all of them. -/
theorem effect (hord : Ordered rq.startseq rq.endseq as) (hp : stack.Perm as) (hse : s < e)
    (h : Effect rq' (as.filter fun a => !rq.dies s e a) (stack.filter fun a => !rq.dies s e a) s e
      f' rq'' flags b stack') : Effect rq as stack s e f rq'' flags b stack' := by
  have hlost : ∀ {a}, a ∈ (as.filter fun a => !rq.dies s e a) → rq.dies s e a = false :=
    fun ha => by simpa using (List.mem_filter.mp ha).2
  refine ⟨?_, fun x hx => ?_, ?_, ?_, ?_, ?_⟩
  · rw [← hk.before_eq hord, ← hk.behind_eq]
    exact h.listed
  · rw [← hk.before_eq hord, ← hk.behind_eq] at hx
    rw [← hk.same.startseq, ← hk.same.endseq, ← hk.pflags]
    exact h.keeping x hx
  · obtain ⟨hlo, hlom, hloe, hhi, hhim, hhie⟩ := h.hull
    have hsub : ∀ a ∈ rq'.touching (as.filter fun a => !rq.dies s e a) s e,
        a ∈ rq.touching as s e := fun a ha => (hk.mem_touching hord
      (List.mem_filter.mp (ReassemblyQueue.mem_touching.mp ha).1).1).mpr (.inl ha)
    rw [hk.same.startseq] at hlom hloe
    rw [hk.same.endseq] at hhim hhie
    refine ⟨hlo, fun a ha => ?_, hloe.imp_right fun ⟨a, ha, h⟩ => ⟨a, hsub a ha, h⟩, hhi,
      fun a ha => ?_, hhie.imp_right fun ⟨a, ha, h⟩ => ⟨a, hsub a ha, h⟩⟩
    · rcases (hk.mem_touching hord (ReassemblyQueue.mem_touching.mp ha).1).mp ha with hm | hd
      · exact hlom a hm
      · exact hlo.trans (dies_eq_true.mp hd).1
    · rcases (hk.mem_touching hord (ReassemblyQueue.mem_touching.mp ha).1).mp ha with hm | hd
      · exact hhim a hm
      · exact (dies_eq_true.mp hd).2.1.trans hhi
  · have hstack := h.restacked
    cases hstack with
    | fresh =>
      have hfilter : (stack.filter fun a => !rq.dies s e a).filter
          (fun x => x ∉ rq'.touching (as.filter fun a => !rq.dies s e a) s e) =
          stack.filter fun x => x ∉ rq.touching as s e := by
        rw [List.filter_filter]
        refine List.filter_congr fun a ha => ?_
        have hiff := hk.mem_touching hord (hp.mem_iff.mp ha)
        by_cases hd : rq.dies s e a = true
        · simp [hiff, hd]
        · simp [hiff, hd]
      rw [hfilter]
      exact .fresh
    | survivor hb hs =>
      have hfilter : (stack.filter fun a => !rq.dies s e a).filter
          (fun x => x = b ∨ x ∉ rq'.touching (as.filter fun a => !rq.dies s e a) s e) =
          stack.filter fun x => x = b ∨ x ∉ rq.touching as s e := by
        rw [List.filter_filter]
        refine List.filter_congr fun a ha => ?_
        have hiff := hk.mem_touching hord (hp.mem_iff.mp ha)
        have hdb : a = b → rq.dies s e a = false := fun hab => hab ▸ hlost hb
        by_cases hd : rq.dies s e a = true
        · have hab : a ≠ b := fun hab => Bool.false_ne_true ((hdb hab).symm.trans hd)
          simp [hiff, hd, hab]
        · simp [hiff, hd]
      rw [hfilter]
      exact .survivor (List.mem_filter.mp hb).1 (hk.survives hse hb hs)
  · obtain ⟨lost, hl, hc⟩ := h.pflags
    exact ⟨lost, fun a ha => ⟨(List.mem_filter.mp (hl a ha).1).1, hk.eclipsed (hl a ha).2⟩,
      hk.collects hord (fun a ha => hlost (hl a ha).1) hc⟩
  · obtain ⟨lost, hl, hc⟩ := h.given
    exact ⟨lost, fun a ha => ⟨(List.mem_filter.mp (hl a ha).1).1,
      (hl a ha).2.imp hk.eclipsed hk.unreported⟩,
      hk.collects hord (fun a ha => hlost (hl a ha).1) hc⟩

end Killed

/-- The search for the last block before the new range finds an empty one, which is deleted like
all others. The new block is then linked to it. -/
structure Dangling (rq : ReassemblyQueue) (as : List ℕ) (s e : TcpSeq) : Prop where
  empty : ∃ p ∈ as, rq.startseq p = s ∧ rq.endseq p = s
  behind : ∃ x ∈ as, s < rq.endseq x
  all : ∀ x ∈ as, rq.dies s e x = true

instance : Decidable (rq.Dangling as s e) :=
  decidable_of_iff ((∃ p ∈ as, rq.startseq p = s ∧ rq.endseq p = s) ∧ (∃ x ∈ as, s < rq.endseq x) ∧
      ∀ x ∈ as, rq.dies s e x = true)
    ⟨fun h => ⟨h.1, h.2.1, h.2.2⟩, fun h => ⟨h.1, h.2, h.3⟩⟩

theorem Killed.affects {result : Except RqError (ReassemblyQueue × TcpFlag)}
    (hk : Killed rq as stack s e f rq' f') (hord : Ordered rq.startseq rq.endseq as)
    (hp : stack.Perm as) (hse : s < e)
    (h : Affects rq' (as.filter fun a => !rq.dies s e a) (stack.filter fun a => !rq.dies s e a) s e
      f' result) : Affects rq as stack s e f result := by
  obtain ⟨rq'', flags, hok, b, stack', he⟩ := h
  exact ⟨rq'', flags, hok, b, stack', hk.effect hord hp hse he⟩

theorem Killed.ordered (hk : Killed rq as stack s e f rq' f')
    (hord : Ordered rq.startseq rq.endseq as) :
    Ordered rq'.startseq rq'.endseq (as.filter fun a => !rq.dies s e a) := by
  rw [hk.same.startseq, hk.same.endseq]
  exact hord.sublist List.filter_sublist

section Pass

variable (hse : s < e) (hpre : ∀ x ∈ pre, rq.endseq x ≤ s)
  (hmid : ∀ a ∈ mid, s < rq.endseq a ∧ rq.startseq a < e)
  (hpost : ∀ y ∈ post, e ≤ rq.startseq y)
  (hord : Ordered rq.startseq rq.endseq (pre ++ mid ++ post))
include hse hpre hmid hpost hord

/-- The loop from the last block before the new range on, or from the head, if no block is exactly
the new range. -/
theorem Listed.scan (h : rq.Listed (pre ++ mid ++ post) stack) (f : TcpFlag) (initcnt : ℤ)
    (hne : ∀ a ∈ mid, ¬ (s = rq.startseq a ∧ e = rq.endseq a)) :
    ∃ rq' f' initcnt',
      ReassemblyQueue.kill s e post.head? (rq.brk + 1) rq f initcnt false
          (pre.getLast? <|> (pre ++ mid ++ post).head?) =
        .ok (.done rq' f' initcnt' ((pre ++ mid ++ post).any (rq.dies s e))) ∧
      Killed rq (pre ++ mid ++ post) stack s e f rq' f' := by
  have hlen := h.threaded.length_le
  rw [List.length_append, List.length_append] at hlen
  have hbehind : ∀ a ∈ post, rq.dies s e a = false := fun a ha => by
    rw [← Bool.not_eq_true, dies_eq_true]
    exact fun hd => hd.2.2.not_ge (hpost a ha)
  have hany : post.any (rq.dies s e) = false := by simpa using hbehind
  rcases List.eq_nil_or_concat pre with rfl | ⟨pre, p, rfl⟩
  · have h' : rq.Listed ([] ++ mid ++ post) stack := h
    obtain ⟨rq', f', initcnt', he, hk⟩ := h'.kill f initcnt false (n := rq.brk + 1) hne
      (fun a ha => (hmid a ha).2) (by simpa using hbehind) (by omega)
    refine ⟨rq', f', initcnt', ?_, hk⟩
    rw [List.any_append, hany, Bool.or_false]
    exact he
  · rw [List.concat_eq_append] at h hlen hpre hord ⊢
    have hps := hpre p (by simp)
    have hple := hord.le p (by simp)
    have hfirst : ∀ a ∈ pre, rq.dies s e a = false := fun a ha => by
      rw [← Bool.not_eq_true, dies_eq_true]
      have hap : rq.endseq a < rq.startseq p :=
        (ordered_append.mp (ordered_append.mp (ordered_append.mp hord).1).1).2.2 a ha p (by simp)
      exact fun hd => ((hd.1.trans (hord.le a (by simp [ha]))).trans_lt
        (hap.trans_le hple)).not_ge hps
    have hany' : pre.any (rq.dies s e) = false := by simpa using hfirst
    have hlist : pre ++ [p] ++ mid ++ post = pre ++ p :: mid ++ post := by simp
    rw [hlist] at h ⊢
    obtain ⟨rq', f', initcnt', he, hk⟩ := h.kill f initcnt false (n := rq.brk + 1)
      (List.forall_mem_cons.mpr ⟨fun hx => hps.not_gt (hse.trans_eq hx.2), hne⟩)
      (List.forall_mem_cons.mpr ⟨(hple.trans hps).trans_lt hse, fun a ha => (hmid a ha).2⟩)
      (List.forall_mem_append.mpr ⟨hfirst, hbehind⟩)
      (by rw [List.length_append] at hlen; simp only [List.length_cons] at hlen ⊢; omega)
    refine ⟨rq', f', initcnt', ?_, hk⟩
    rw [Bool.false_or] at he
    rw [List.any_append, List.any_append, hany, hany', Bool.or_false, Bool.false_or, ← he,
      List.getLast?_concat]
    rfl

omit hpre hmid hpost in
/-- A block that is exactly the new range takes over its flags. -/
theorem Listed.pass_exact (h : rq.Listed (pre ++ mid ++ post) stack) (f : TcpFlag) (initcnt : ℤ)
    (hc : c ∈ mid) (hx : s = rq.startseq c ∧ e = rq.endseq c) :
    ∃ rq' flags,
      ReassemblyQueue.kill s e post.head? (rq.brk + 1) rq f initcnt false
          (pre.getLast? <|> (pre ++ mid ++ post).head?) = .ok (.exact rq' flags) ∧
      Affects rq (pre ++ mid ++ post) stack s e f (.ok (rq', flags)) := by
  obtain ⟨xs, ys, rfl⟩ := List.append_of_mem hc
  have hlist : pre ++ (xs ++ c :: ys) ++ post = pre ++ xs ++ c :: (ys ++ post) := by simp
  obtain ⟨-, hsep, hlt⟩ := ordered_append.mp (hlist ▸ hord)
  have hbefore : ∀ a ∈ pre ++ xs, rq.endseq a < s := fun a ha =>
    (hlt a ha c List.mem_cons_self).trans_eq hx.1.symm
  have hbehind : ∀ a ∈ ys ++ post, e < rq.startseq a := fun a ha =>
    hx.2.trans_lt ((ordered_cons.mp hsep).2.1 a ha)
  refine ⟨_, _, h.threaded.scan_exact (fun a ha => ⟨?_, ?_⟩) hx f initcnt, _, _, rfl, c, stack, ?_⟩
  · exact fun hxa => (hbefore a ha).not_gt (hse.trans_eq hxa.2)
  · have hle : rq.startseq a ≤ rq.endseq a := hord.le a (by
      simp only [List.mem_append] at ha ⊢
      tauto)
    exact decide_eq_false fun hin => (hin.1.trans hle).not_gt (hbefore a ha)
  · rw [hlist] at h hord ⊢
    have hplaced : Placed rq
        { rq with pflags := Function.update rq.pflags c (rq.pflags c ||| f) } (pre ++ xs)
        (ys ++ post) stack c (rq.startseq c) (rq.endseq c) (rq.pflags c ||| f) := by
      refine ⟨h.congr rfl rfl rfl rfl, fun x hx => ⟨rfl, rfl, ?_⟩, rfl, rfl,
        Function.update_self ..⟩
      exact Function.update_of_ne (ne_of_mem_of_not_mem hx h.notMem) ..
    refine hplaced.extend hbefore hbehind hse.le hord (hse.le.trans hx.2.le) (hx.1.ge.trans hse.le)
      (min_eq_right hx.1.ge).symm (max_eq_right hx.2.le).symm
      (.inr (.inl ⟨hx.1.symm, hx.2.le⟩)) (fun i => ?_) (.inl rfl)
    rw [has_or, or_comm]

end Pass

/-- The new range comes after all blocks, or before them. -/
theorem Listed.again2_ends (h : rq.Listed as stack) (hord : Ordered rq.startseq rq.endseq as)
    (hse : s ≤ e) (hhead : rq.fifo.head = some a) (htail : rq.fifo.tail = some b)
    (hends : rq.endseq b ≤ s ∨ e ≤ rq.startseq a) (f : TcpFlag) (initcnt : ℤ) :
    Affects rq as stack s e f (again2 s e rqflags (n + 1) rq f initcnt) := by
  rw [again2, hhead, htail]
  dsimp only
  rw [h.threaded.spells.head_eq] at hhead
  rw [h.threaded.spells.tail_eq] at htail
  split_ifs with hb ha
  · obtain ⟨as, rfl⟩ := List.getLast?_eq_some_iff.mp htail
    obtain ⟨-, hone, hlt⟩ := ordered_append.mp hord
    have hall : ∀ x ∈ as ++ [b], rq.endseq x ≤ s := List.forall_mem_append.mpr
      ⟨fun x hx => (hlt x hx b (by simp)).le.trans ((hone.le b (by simp)).trans hb),
        by simpa using hb⟩
    have hlist : as ++ [b] = as ++ [b] ++ [] := by simp
    have haff := (hlist ▸ h).endfast_affects (hlist ▸ hord) hse hall (by simp) (.inr rfl) f rqflags
      initcnt (decide (s = rq.endseq b)) (by simp [eq_comm])
    rw [List.getLast?_concat, ← hlist] at haff
    exact haff
  · obtain ⟨as, rfl⟩ := List.head?_eq_some_iff.mp hhead
    obtain ⟨hle, hlt, -⟩ := ordered_cons.mp hord
    have hall : ∀ x ∈ a :: as, e ≤ rq.startseq x :=
      List.forall_mem_cons.mpr ⟨ha, fun x hx => ha.trans (hle.trans (hlt x hx).le)⟩
    have h' : rq.Listed ([] ++ a :: as) stack := h
    exact h'.endfast_affects hord hse (by simp) hall (.inl (by simp)) f rqflags initcnt
      (decide (e = rq.startseq a)) (by simp [eq_comm])
  · exact absurd hends (not_or.mpr ⟨hb, ha⟩)

/-- One pass of `add`, where `hrec` says what the next one does. -/
theorem Listed.again2_step (h : rq.Listed as stack) (hord : Ordered rq.startseq rq.endseq as)
    (has : as ≠ []) (hse : s < e) (hdang : ¬ rq.Dangling as s e) (f : TcpFlag) (initcnt : ℤ)
    (hrec : (∃ a ∈ as, rq.dies s e a = true) → ∀ {rq' f'} initcnt, Killed rq as stack s e f rq' f' →
      (as.filter fun a => !rq.dies s e a) ≠ [] →
      Affects rq' (as.filter fun a => !rq.dies s e a) (stack.filter fun a => !rq.dies s e a) s e f'
        (again2 s e rqflags n rq' f' initcnt)) :
    Affects rq as stack s e f (again2 s e rqflags (n + 1) rq f initcnt) := by
  obtain ⟨hd, as', hcons⟩ := List.exists_cons_of_ne_nil has
  obtain ⟨tl, htl⟩ := Option.ne_none_iff_exists'.mp (mt List.getLast?_eq_none_iff.mp has)
  have hhead : rq.fifo.head = some hd := by rw [h.threaded.spells.head_eq, hcons, List.head?_cons]
  have htail : rq.fifo.tail = some tl := h.threaded.spells.tail_eq.trans htl
  by_cases hends : rq.endseq tl ≤ s ∨ e ≤ rq.startseq hd
  · exact h.again2_ends hord hse.le hhead htail hends f initcnt
  · obtain ⟨htl', hhd'⟩ := not_or.mp hends
    rw [ReassemblyQueue.again2, hhead, htail]
    dsimp only
    rw [if_neg htl', if_neg hhd']
    obtain ⟨pre, mid, post, rfl, hpre, hmid, hpost⟩ := hord.exists_split s e
    have hseek := h.threaded.seek hse hpre hmid hpost hord
    rw [hhead, htail] at hseek
    rw [hseek.1, hseek.2]
    have hstart : some hd = (pre ++ mid ++ post).head? := by rw [hcons, List.head?_cons]
    dsimp only
    by_cases hex : ∃ c ∈ mid, s = rq.startseq c ∧ e = rq.endseq c
    · obtain ⟨c, hc, hx⟩ := hex
      obtain ⟨rq', flags, hk, haff⟩ := h.pass_exact hse hord f initcnt hc hx
      rw [hstart, hk]
      exact haff
    · push Not at hex
      obtain ⟨rq', f', initcnt', hk, hkilled⟩ := h.scan hse hpre hmid hpost hord f initcnt
        fun a ha hx => hex a ha hx.1 hx.2
      rw [hstart, hk]
      refine hkilled.affects hord h.same hse ?_
      have hord' := hkilled.ordered hord
      have hlisted := hkilled.listed
      change Affects _ _ _ _ _ _ (if rq'.empty = true then _ else if _ = true then _ else _)
      split_ifs with hempty halt
      · have hnil : (pre ++ mid ++ post).filter (fun a => !rq.dies s e a) = [] :=
          List.head?_eq_none_iff.mp
            (hlisted.threaded.spells.head_eq.symm.trans (Option.isNone_iff_eq_none.mp hempty))
        have hall : ∀ a ∈ pre ++ mid ++ post, rq.dies s e a = true := fun a ha => by
          simpa using List.filter_eq_nil_iff.mp hnil a ha
        have hpnil : pre = [] := List.eq_nil_iff_forall_not_mem.mpr fun p hp => by
          have hps := (dies_eq_true.mp (hall p (by simp [hp]))).1
          have hple := hord.le p (by simp [hp])
          have hpe := hpre p hp
          exact hdang ⟨⟨p, by simp [hp], le_antisymm (hple.trans hpe) hps,
            le_antisymm hpe (hps.trans hple)⟩, ⟨tl, List.mem_of_getLast? htl, not_le.mp htl'⟩, hall⟩
        have hqnil : post = [] := List.eq_nil_iff_forall_not_mem.mpr fun q hq =>
          (dies_eq_true.mp (hall q (by simp [hq]))).2.2.not_ge (hpost q hq)
        rw [hnil] at hlisted hord' ⊢
        subst hpnil hqnil
        have hl : rq'.Listed ([] ++ []) (stack.filter fun a => !rq.dies s e a) := hlisted
        exact hl.endfast_affects hord' hse.le (by simp) (by simp) (.inr rfl) f' rqflags initcnt'
          false (by simp)
      · have hne : (pre ++ mid ++ post).filter (fun a => !rq.dies s e a) ≠ [] := fun hnil => by
          rw [hnil] at hlisted
          exact hempty (Option.isNone_iff_eq_none.mpr hlisted.threaded.spells.head_eq)
        exact hrec (List.any_eq_true.mp halt) initcnt' hkilled hne
      · have hout : ∀ a ∈ pre ++ mid ++ post, rq.dies s e a = false := fun a ha => by
          rw [← Bool.not_eq_true]
          exact fun hd => halt (List.any_eq_true.mpr ⟨a, ha, hd⟩)
        have hfilter : ∀ xs : List ℕ, (∀ a ∈ xs, a ∈ pre ++ mid ++ post) →
            xs.filter (fun a => !rq.dies s e a) = xs := fun xs hxs =>
          List.filter_eq_self.mpr fun a ha => by simp [hout a (hxs a ha)]
        have hno : ∀ a ∈ pre ++ mid ++ post,
            ¬ (s ≤ rq.startseq a ∧ rq.endseq a ≤ e ∧ rq.startseq a < e) := fun a ha hin =>
          Bool.false_ne_true ((hout a ha).symm.trans (dies_eq_true.mpr hin))
        rw [hfilter _ fun _ => id] at hlisted hord' ⊢
        rw [hfilter _ fun a ha => h.same.mem_iff.mp ha] at hlisted ⊢
        refine hlisted.merge_affects (fun x hx => ?_) (hkilled.same.startseq ▸ hpost) hord' hse
          (hkilled.same.startseq ▸ hkilled.same.endseq ▸ hmid) (fun a ha => ?_)
          fun hnil => ⟨?_, ?_⟩
        · have hxs := hpre x hx
          have hle := hord.le x (by simp [hx])
          rw [hkilled.same.startseq, hkilled.same.endseq]
          refine ⟨hxs, not_le.mp fun hsx => hno x (by simp [hx]) ⟨hsx, hxs.trans hse.le, ?_⟩⟩
          exact (hle.trans hxs).trans_lt hse
        · rw [hkilled.same.startseq, hkilled.same.endseq]
          by_contra hin
          rw [not_or, not_lt, not_lt] at hin
          exact hno a (by simp [ha]) ⟨hin.1, hin.2, (hmid a ha).2⟩
        · rintro rfl
          have hm : hd ∈ [] ++ mid ++ post := hcons ▸ List.mem_cons_self
          rw [hnil] at hm
          exact hhd' (hpost hd (by simpa using hm))
        · rintro rfl
          rw [hnil] at htl
          exact htl' (hpre tl (by simpa using List.mem_of_getLast? htl))

/-- Two passes are enough: the second one deletes nothing. -/
theorem Listed.again2 (h : rq.Listed as stack) (hord : Ordered rq.startseq rq.endseq as)
    (has : as ≠ []) (hse : s < e) (hdang : ¬ rq.Dangling as s e) (f : TcpFlag) (initcnt : ℤ) :
    Affects rq as stack s e f (again2 s e rqflags (n + 2) rq f initcnt) := by
  refine h.again2_step hord has hse hdang f initcnt fun _ rq' f' initcnt hk hne => ?_
  have hout : ∀ a ∈ as.filter fun a => !rq.dies s e a, rq'.dies s e a = false := fun a ha => by
    rw [dies_congr hk.same]
    simpa using (List.mem_filter.mp ha).2
  obtain ⟨b, hb⟩ := List.exists_mem_of_ne_nil _ hne
  refine hk.listed.again2_step (hk.ordered hord) hne hse (fun hd => ?_) f' initcnt
    fun ⟨a, ha, hin⟩ => absurd ((hout a ha).symm.trans hin) Bool.false_ne_true
  exact Bool.false_ne_true ((hout b hb).symm.trans (hd.all b hb))

end ReassemblyQueue

end Ns2XPass
