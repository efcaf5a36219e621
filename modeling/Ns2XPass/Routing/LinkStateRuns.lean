import Mathlib.Data.Finset.Prod
import Mathlib.Data.Finset.Card
import Ns2XPass.Routing.LinkStateRoutes

/-! # Completeness of the link-state routes

Every pop finds a next hop that the result did not have, so the loops end. When no
path is under way any more, the result has all first hops of all walks of least
cost.
-/

namespace Ns2XPass

namespace LsRouting

variable {db : LsTopoMap} {me u v w c h m : ℤ} {P T : LsPaths} {p : LsEqualPaths} {hs : List ℤ}
  {l : LsLinkState} {links : List LsLinkState}

/-! ## Expanding a node -/

theorem Sound.foldl_offer (hd : Fits db me) (hs : Sound db me P T m) (hu : P[u]? = some p)
    (hm : p.cost = m) (hl : ∀ l ∈ links, l.status = .up → db.edge u l.neighborId l.cost) :
    Sound db me P (links.foldl (expandLink me P u p.nextHopList) T) m ∧
      (∀ v c h, Covered P T v c h →
        Covered P (links.foldl (expandLink me P u p.nextHopList) T) v c h) ∧
      ∀ l ∈ links, l.status = .up → ∀ h ∈ hopsOver me p u l.neighborId,
        Covered P (links.foldl (expandLink me P u p.nextHopList) T) l.neighborId
          (p.cost + l.cost) h := by
  induction links generalizing T with
  | nil => exact ⟨hs, fun _ _ _ => id, by simp⟩
  | cons l links ih =>
    obtain ⟨hs', hmono, hnew⟩ := hs.offer hd hu hm (hl l List.mem_cons_self)
    obtain ⟨hs'', hmono', hnew'⟩ := ih hs' (fun l h => hl l (List.mem_cons_of_mem _ h))
    refine ⟨hs'', fun v c h hc => hmono' v c h (hmono v c h hc), ?_⟩
    exact List.forall_mem_cons.mpr ⟨fun hup h hh => hmono' _ _ _ (hnew hup h hh), hnew'⟩

theorem expandLink_self (x y : List ℤ) : expandLink me P me x T l = expandLink me P me y T l := by
  unfold expandLink
  simp only [if_true]

theorem Sound.exists_expand (hd : Fits db me) (hs : Sound db me P T m) (hu : P[u]? = some p)
    (hm : p.cost = m) (hlinks : db[u]? = some links)
    (hall : ∀ v, v ≠ u → Expanded db me P T v) :
    ∃ T', expand me P u links T = .ok T' ∧ Sound db me P T' m ∧ ∀ v, Expanded db me P T' v := by
  have hl : ∀ l ∈ links, l.status = .up → db.edge u l.neighborId l.cost :=
    fun l hl hup => ⟨links, hlinks, l, hl, hup, rfl, rfl⟩
  obtain ⟨hs', hmono, hnew⟩ := hs.foldl_offer hd hu hm hl
  refine ⟨_, ?_, hs', fun v => ?_⟩
  · unfold expand
    split
    · next hme =>
      subst hme
      have hfun : expandLink u P u [] = expandLink u P u p.nextHopList := by
        funext T l
        exact expandLink_self _ _
      rw [hfun]
    · rw [hu]
  · by_cases hv : v = u
    · subst hv
      rintro q w a hq ⟨links', hlinks', l, hmem, hup, rfl, rfl⟩ h hh
      obtain rfl : q = p := Option.some.inj (hq.symm.trans hu)
      obtain rfl : links' = links := Option.some.inj (hlinks'.symm.trans hlinks)
      exact hnew l hmem hup h hh
    · intro q w a hq hedge h hh
      exact hmono _ _ _ (hall v hv q w a hq hedge h hh)

/-! ## The shortest path under way -/

theorem exists_hopsOver (hs : Sound db me P T m) (hu : P[u]? = some p) (w : ℤ) :
    ∃ h, h ∈ hopsOver me p u w := by
  unfold hopsOver
  split
  · exact ⟨w, List.mem_singleton_self w⟩
  · next hne => exact List.exists_mem_of_ne_nil _ (hs.paths u p hu hne).1

/-- A walk to a node without a path is at least as long as some path under way. -/
theorem Sound.exists_tentative (hd : Fits db me) (hs : Sound db me P T m)
    (hall : ∀ v, Expanded db me P T v) (hw : Walk db.edge me v c) (hv : P[v]? = none) :
    lsMaxCost + 1 < c ∨ ∃ (y : ℤ) (t : LsEqualPaths), T[y]? = some t ∧ t.cost ≤ c := by
  obtain ⟨x, y, c₁, a, hx, hy, hwx, hedge, hle⟩ :=
    hw.exists_border hd.pos (S := fun x => P[x]? ≠ none)
      (by rw [hs.self]; exact Option.some_ne_none _) (not_not.mpr hv)
  obtain ⟨p, hp⟩ := Option.ne_none_iff_exists'.mp hx
  have hy : P[y]? = none := not_not.mp hy
  obtain ⟨h, hh⟩ := exists_hopsOver hs hp y
  have hcost := (hs.least hd hp).1.2 c₁ hwx
  obtain hmax | ⟨q, hq, -⟩ | ⟨t, ht, hcase⟩ := hall x p y a hp hedge h hh
  · exact .inl (by omega)
  · rw [hy] at hq
    simp at hq
  · exact .inr ⟨y, t, ht, by omega⟩

/-- A shortest path under way is a path of least cost. -/
theorem Sound.least_min {t : LsEqualPaths} (hd : Fits db me) (hs : Sound db me P T m)
    (hall : ∀ v, Expanded db me P T v) (ht : T[v]? = some t)
    (hmin : ∀ (w : ℤ) (t' : LsEqualPaths), T[w]? = some t' → t.cost ≤ t'.cost) :
    LeastCost db.edge me v t.cost := by
  obtain ⟨hne, -, -, -, hvia⟩ := hs.tentative v t ht
  obtain ⟨h, hh⟩ := List.exists_mem_of_ne_nil _ hne
  have hwalk := (hvia h hh).walk
  cases hv : P[v]? with
  | some p =>
    rw [(hs.both v p t hv ht).1]
    exact (hs.least hd hv).1
  | none =>
    obtain ⟨c, hc⟩ := hwalk.exists_least hd.pos
    have hle : t.cost ≤ c := by
      obtain hmax | ⟨y, t', ht', hle⟩ := hs.exists_tentative hd hall hc.1 hv
      · have := hd.max v c hc
        omega
      · exact (hmin y t' ht').trans hle
    obtain rfl : t.cost = c := le_antisymm hle (hc.2 _ hwalk)
    exact hc

/-- As long as a path is under way there is a shortest one. -/
theorem Sound.exists_min (hd : Fits db me) (hs : Sound db me P T m)
    (hall : ∀ v, Expanded db me P T v) (hT : ¬T.isEmpty = true) :
    ∃ (v : ℤ) (t : LsEqualPaths), T.findMinEqualPaths = some (v, t) ∧ T[v]? = some t ∧
      ∀ (w : ℤ) (t' : LsEqualPaths), T[w]? = some t' → t.cost ≤ t'.cost := by
  obtain ⟨-, hmax⟩ | ⟨v, t, hfind, ht, -, hmin⟩ := T.findMinEqualPaths_cases
  · rw [LsMap.isEmpty_iff, not_forall] at hT
    obtain ⟨v, hv⟩ := hT
    obtain ⟨t, ht⟩ := Option.ne_none_iff_exists'.mp hv
    obtain ⟨hne, -, -, -, hvia⟩ := hs.tentative v t ht
    have htmax := hmax v t ht hne
    obtain ⟨h, hh⟩ := List.exists_mem_of_ne_nil _ hne
    obtain ⟨c, hc⟩ := (hvia h hh).walk.exists_least hd.pos
    have hcmax := hd.max v c hc
    cases hp : P[v]? with
    | some p =>
      have := (hs.both v p t hp ht).1
      have := (hs.least hd hp).1.unique hc
      omega
    | none =>
      obtain hmax' | ⟨y, t', ht', hle⟩ := hs.exists_tentative hd hall hc.1 hp
      · omega
      · have := hmax y t' ht' (hs.tentative y t' ht').1
        omega
  · exact ⟨v, t, hfind, ht, fun w t' ht' => hmin w t' ht' (hs.tentative w t' ht').1⟩

/-! ## Popping the shortest path -/

/-- The paths that have been found are kept, with one next hop more. -/
structure Extends (P P' : LsPaths) (v c h : ℤ) : Prop where
  other : ∀ w : ℤ, w ≠ v → P'[w]? = P[w]?
  self : ∃ p, P'[v]? = some p ∧ p.cost = c ∧ h ∈ p.nextHopList
  kept : ∀ p, P[v]? = some p → ∃ p', P'[v]? = some p' ∧ p'.cost = p.cost ∧
    ∀ x ∈ p.nextHopList, x ∈ p'.nextHopList
  new : ∀ p, P[v]? = some p → h ∉ p.nextHopList

theorem Extends.offers {P' : LsPaths} (he : Extends P P' v c h) {x a y : ℤ}
    (ho : P.Offers x a y) : P'.Offers x a y := by
  obtain ⟨p, hp, hcost⟩ := ho
  by_cases hx : x = v
  · subst hx
    obtain ⟨p', hp', heq, hsub⟩ := he.kept p hp
    exact ⟨p', hp', hcost.imp (fun hlt => by omega) fun hc => ⟨by omega, hsub _ hc.2⟩⟩
  · exact ⟨p, by rwa [he.other x hx], hcost⟩

/-- What a pop leaves behind. -/
structure Popped (db : LsTopoMap) (me : ℤ) (P P' T' : LsPaths) (v c h : ℤ) : Prop where
  valid : (⟨v, c, h⟩ : LsPath).isValid = true
  sound : Sound db me P' T' c
  expanded : ∀ u, u ≠ v → Expanded db me P' T' u
  more : Extends P P' v c h
  first : Via db.edge me h v c

/-- The first hop of a path of least cost is another node. -/
theorem Fits.isValid {v c h : ℤ} (hd : Fits db me) (hleast : LeastCost db.edge me v c)
    (hvia : Via db.edge me h v c) (hme : v ≠ me) : (⟨v, c, h⟩ : LsPath).isValid = true := by
  obtain ⟨a, c', ha, hw, rfl⟩ := hvia
  have hhme : h ≠ me := by
    rintro rfl
    have := hleast.2 c' hw
    have := hd.pos _ _ _ ha
    omega
  have hv := hd.valid v _ hleast.1 hme
  have hhop : h ≠ lsInvalidCost := hd.valid h a (.single ha) hhme
  have hmax := hd.max v _ hleast
  have hcost : a + c' ≠ lsInvalidCost := by
    unfold lsMaxCost at hmax
    unfold lsInvalidCost
    omega
  simp [LsPath.isValid, hv, hcost, hhop]

section Pop

variable {P' T' : LsPaths} {v c h : ℤ} {rest : List ℤ}
  (hS : Sound db me P T m) (ht : T[v]? = some ⟨c, h :: rest⟩)
  (hP' : ∀ w : ℤ, P'[w]? =
    if w = v then some ⟨c, ((P[v]?).elim [] (·.nextHopList)) ++ [h]⟩ else P[w]?)
  (hT' : ∀ w : ℤ, T'[w]? = if w = v then if rest = [] then none else some ⟨c, rest⟩ else T[w]?)
include hS ht

theorem Sound.inserted (p : LsEqualPaths) (hp : P[v]? = some p) :
    p.cost = c ∧ h ∉ p.nextHopList := by
  obtain ⟨hc, hnew⟩ := hS.both v p _ hp ht
  exact ⟨hc.symm, hnew h List.mem_cons_self⟩

include hP'

theorem Sound.extends : Extends P P' v c h := by
  have hold := hS.inserted ht
  constructor
  · intro w hw
    rw [hP', if_neg hw]
  · exact ⟨_, by rw [hP', if_pos rfl], rfl, List.mem_append_right _ (List.mem_singleton_self h)⟩
  · intro p hp
    refine ⟨_, by rw [hP', if_pos rfl], (hold p hp).1.symm, fun x hx => ?_⟩
    rw [hp]
    exact List.mem_append_left _ hx
  · exact fun p hp => (hold p hp).2

include hT'

/-- One next hop moves from the paths under way to those that are found. -/
theorem Sound.moved (hleast : LeastCost db.edge me v c)
    (hmin : ∀ (w : ℤ) (t : LsEqualPaths), T[w]? = some t → c ≤ t.cost) : Sound db me P' T' c := by
  have hext := hS.extends ht hP'
  have hold := hS.inserted ht
  obtain ⟨-, hnodup, hm, hme, hvia⟩ := hS.tentative v _ ht
  obtain ⟨hh, hnodup⟩ := List.nodup_cons.mp hnodup
  constructor
  · rw [hext.other me hme.symm]
    exact hS.self
  · exact hS.nonneg.trans hm
  · intro w p hp hwme
    by_cases hw : w = v
    · subst hw
      rw [hP', if_pos rfl] at hp
      obtain rfl := Option.some.inj hp
      have hviah : Via db.edge me h w c := hvia h List.mem_cons_self
      cases hq : P[w]? with
      | none =>
        exact ⟨List.cons_ne_nil _ _, List.nodup_singleton _, hleast, le_rfl, by simpa using hviah⟩
      | some q =>
        obtain ⟨-, hqn, -, -, hqv⟩ := hS.paths w q hq hwme
        obtain ⟨rfl, hnew⟩ := hold q hq
        refine ⟨List.append_ne_nil_of_right_ne_nil _ (List.cons_ne_nil _ _), ?_, hleast, le_rfl,
          fun x hx => ?_⟩
        · rw [Option.elim_some, ← List.concat_eq_append]
          exact hqn.concat hnew
        · obtain hx | hx := List.mem_append.mp hx
          · exact hqv x hx
          · rwa [List.mem_singleton.mp hx]
    · rw [hext.other w hw] at hp
      obtain ⟨hpn, hpd, hpl, hpm, hpv⟩ := hS.paths w p hp hwme
      exact ⟨hpn, hpd, hpl, hpm.trans hm, hpv⟩
  · intro w t' ht'
    rw [hT'] at ht'
    split at ht'
    · next hw =>
      subst hw
      split at ht'
      · simp at ht'
      · next hrest =>
        obtain rfl := Option.some.inj ht'
        exact ⟨hrest, hnodup, le_rfl, hme, fun x hx => hvia x (List.mem_cons_of_mem _ hx)⟩
    · obtain ⟨htn, htd, -, htme, htv⟩ := hS.tentative w t' ht'
      exact ⟨htn, htd, hmin w t' ht', htme, htv⟩
  · intro w p t' hp ht'
    rw [hT'] at ht'
    split at ht'
    · next hw =>
      subst hw
      split at ht'
      · simp at ht'
      · obtain rfl := Option.some.inj ht'
        rw [hP', if_pos rfl] at hp
        obtain rfl := Option.some.inj hp
        refine ⟨rfl, fun x hx hmem => ?_⟩
        obtain hmem | hmem := List.mem_append.mp hmem
        · cases hq : P[w]? with
          | none =>
            rw [hq] at hmem
            exact absurd hmem List.not_mem_nil
          | some q =>
            rw [hq] at hmem
            exact (hS.both w q _ hq ht).2 x (List.mem_cons_of_mem _ hx) hmem
        · rw [List.mem_singleton.mp hmem] at hx
          exact hh hx
    · next hw =>
      rw [hext.other w hw] at hp
      exact hS.both w p t' hp ht'

/-- The paths over the nodes that were expanded are still in one of the maps. -/
theorem Expanded.moved {u : ℤ} (hu : u ≠ v) (hall : Expanded db me P T u) :
    Expanded db me P' T' u := by
  have hext := hS.extends ht hP'
  intro p w a hp hedge x hx
  rw [hext.other u hu] at hp
  obtain hmax | hP | ⟨t', ht', hcost⟩ := hall p w a hp hedge x hx
  · exact .inl hmax
  · exact .inr (.inl (hext.offers hP))
  · by_cases hw : w = v
    · subst hw
      obtain rfl := Option.some.inj (ht'.symm.trans ht)
      obtain ⟨q, hq, hqc, hqh⟩ := hext.self
      dsimp only at hcost
      obtain hlt | ⟨heq, hmem⟩ := hcost
      · exact .inr (.inl ⟨q, hq, .inl (by omega)⟩)
      · obtain rfl | hmem := List.mem_cons.mp hmem
        · exact .inr (.inl ⟨q, hq, .inr ⟨by omega, hqh⟩⟩)
        · refine .inr (.inr ⟨⟨c, rest⟩, ?_, .inr ⟨heq, hmem⟩⟩)
          rw [hT', if_pos rfl, if_neg (List.ne_nil_of_mem hmem)]
    · exact .inr (.inr ⟨t', by rwa [hT', if_neg hw], hcost⟩)

end Pop

theorem Sound.pop (hd : Fits db me) (hs : Sound db me P T m)
    (hall : ∀ v, Expanded db me P T v) (hT : ¬T.isEmpty = true) :
    ∃ v c h, T.popShortestPath.1 = ⟨v, c, h⟩ ∧
      Popped db me P (P.insertPath v c h) T.popShortestPath.2 v c h := by
  obtain ⟨v, ⟨c, hops⟩, hfind, ht, hmin⟩ := hs.exists_min hd hall hT
  have hleast := hs.least_min hd hall ht hmin
  obtain ⟨hne, -, -, hme, hvia⟩ := hs.tentative v _ ht
  cases hops with
  | nil => exact absurd rfl hne
  | cons h rest =>
    obtain ⟨hpop, hT'⟩ := LsPaths.popShortestPath_eq hfind
    have hviah : Via db.edge me h v c := hvia h List.mem_cons_self
    have hP' := fun w : ℤ => P.get_insertPath (v := w) v c h (hs.inserted ht)
    exact ⟨v, c, h, hpop, hd.isValid hleast hviah hme, hs.moved ht hP' hT' hleast hmin,
      fun u hu => Expanded.moved hs ht hP' hT' hu (hall u), hs.extends ht hP', hviah⟩

end LsRouting

end Ns2XPass
