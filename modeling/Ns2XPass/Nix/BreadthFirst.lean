import Mathlib.Data.Finset.Card
import Ns2XPass.Library.LeastCost
import Ns2XPass.Nix.RoundTrip

/-! # Routes by breadth-first search

A node searches the graph for its shortest routes and writes the route to a target into a
vector of neighbour indices. The search ends after one round for each node that it reaches,
distances, next hops and parents are those of shortest routes, and the vector has the hops
of one of them.
-/

namespace Ns2XPass

variable {adj : ℕ → List ℕ} {n root u v w d e : ℕ} {hops rest l : List ℕ} {nv : NixVec}

/-- The variables of the search. A node is grey when its bit is set. -/
structure BFS where
  grey : ℕ → Bool
  queue : List ℕ
  dist : ℕ → Option ℕ
  nextHop : ℕ → Option ℕ
  parent : ℕ → Option ℕ

namespace BFS

section Search

variable (adj : ℕ → List ℕ) (root : ℕ)

def start : BFS where
  grey := Function.update (fun _ => false) root true
  queue := [root]
  dist := Function.update (fun _ => none) root (some 0)
  nextHop _ := none
  parent _ := none

/-- The neighbour `v` of the node `u` is found, and waits in the queue. -/
def found (u : ℕ) (s : BFS) (v : ℕ) : BFS where
  grey := Function.update s.grey v true
  queue := s.queue ++ [v]
  dist := Function.update s.dist v ((s.dist u).map (· + 1))
  parent := Function.update s.parent v (some u)
  nextHop := Function.update s.nextHop v (if u = root then some v else s.nextHop u)

def look (u : ℕ) (s : BFS) (v : ℕ) : BFS := if s.grey v then s else found root u s v

/-- The loop over the queue, or `none` if it goes on after some rounds. -/
def run : ℕ → BFS → Option BFS
  | 0, s => if s.queue = [] then some s else none
  | n + 1, s =>
    match s.queue with
    | [] => some s
    | u :: _ =>
      let s := (adj u).foldl (look root u) s
      run n { s with queue := s.queue.tail }

end Search

/-- `NixPred`, which exits if a node does not find its neighbour, or `none` if it calls itself more
often than a bound. -/
def nixPred (adj : ℕ → List ℕ) (pred : ℕ → Option ℕ) (s : ℕ) : ℕ → ℕ → NixVec → Option NixVec
  | 0, p, nv => if s = p ∨ pred p = none then some nv else none
  | k + 1, p, nv =>
    if s = p then some nv
    else
      match pred p with
      | none => some nv
      | some q =>
        (nixPred adj pred s k q nv).bind fun nv =>
          let r := getNix (adj q) p
          if r.1 = nixNone then none else some (nv.add r)

/-- `ComputeNixVector` of a graph with `n` nodes. -/
def computeNixVector (adj : ℕ → List ℕ) (n s t : ℕ) : Option NixVec :=
  (run adj s n (start s)).bind fun r => nixPred adj r.parent s n t {}

/-- An edge, which counts one hop. -/
def Hop (adj : ℕ → List ℕ) (u v c : ℕ) : Prop := v ∈ adj u ∧ c = 1

/-! ## What the search knows -/

/-- The nodes in the queue are sorted by their distances, and no node that is known is more than
one hop farther than the first of them. The neighbours of those that have left it are known. -/
structure Searching (adj : ℕ → List ℕ) (root n : ℕ) (s : BFS) : Prop where
  start : s.dist root = some 0
  root_of_zero : ∀ v, s.dist v = some 0 → v = root
  grey : ∀ v, s.grey v = true ↔ ∃ d, s.dist v = some d
  lt : ∀ v d, s.dist v = some d → v < n
  queued : ∀ v ∈ s.queue, ∃ d, s.dist v = some d
  sorted : s.queue.Pairwise fun v w => ∀ d e, s.dist v = some d → s.dist w = some e → d ≤ e
  near : ∀ u rest, s.queue = u :: rest → ∀ d v e, s.dist u = some d → s.dist v = some e → e ≤ d + 1
  tree : ∀ v d, s.dist v = some (d + 1) → ∃ p, s.parent v = some p ∧ s.dist p = some d ∧
    v ∈ adj p ∧ s.nextHop v = if p = root then some v else s.nextHop p
  unknown : ∀ v, s.dist v = none → s.parent v = none ∧ s.nextHop v = none
  nextHop_root : s.nextHop root = none
  done : ∀ v d, s.dist v = some d → v ∉ s.queue → ∀ w ∈ adj v, ∃ e, s.dist w = some e ∧ e ≤ d + 1

/-- A later state of the search, in which the queue is longer. -/
structure Later (s s' : BFS) : Prop where
  queue : ∃ more, s'.queue = s.queue ++ more
  dist : ∀ v d, s.dist v = some d → s'.dist v = some d

theorem Later.refl (s : BFS) : Later s s := ⟨⟨[], (List.append_nil _).symm⟩, fun _ _ h => h⟩

theorem Later.trans {s s' s'' : BFS} (h : Later s s') (h' : Later s' s'') : Later s s'' := by
  obtain ⟨more, hm⟩ := h.queue
  obtain ⟨more', hm'⟩ := h'.queue
  constructor
  · exact ⟨more ++ more', by rw [hm', hm, List.append_assoc]⟩
  · exact fun v d hd => h'.dist v d (h.dist v d hd)

/-- The nodes that have not been found yet, and those that wait. -/
def remaining (n : ℕ) (s : BFS) : ℕ :=
  ((Finset.range n).filter fun v => s.grey v = false).card + s.queue.length

theorem remaining_start (h : root < n) : remaining n (start root) = n := by
  have hrest : ((Finset.range n).filter fun v => (start root).grey v = false) =
      (Finset.range n).erase root := by
    ext v
    rw [Finset.mem_filter, Finset.mem_erase, Finset.mem_range, and_comm]
    apply and_congr_left
    intro _
    rcases eq_or_ne v root with rfl | hne
    · simp [start]
    · simp [start, hne]
  have hpos : 0 < n := Nat.zero_lt_of_lt h
  rw [remaining, hrest, Finset.card_erase_of_mem (Finset.mem_range.mpr h), Finset.card_range]
  change n - 1 + 1 = n
  omega

variable {s s' : BFS}

theorem remaining_look (hv : v < n) : remaining n (look root u s v) = remaining n s := by
  rw [look]
  split_ifs with hgrey
  · rfl
  · have hwhite : v ∈ (Finset.range n).filter fun w => s.grey w = false := by
      rw [Finset.mem_filter, Finset.mem_range]
      exact ⟨hv, Bool.eq_false_iff.mpr hgrey⟩
    have hrest : ((Finset.range n).filter fun w => Function.update s.grey v true w = false) =
        ((Finset.range n).filter fun w => s.grey w = false).erase v := by
      ext w
      rw [Finset.mem_filter, Finset.mem_erase, Finset.mem_filter]
      rcases eq_or_ne w v with rfl | hne
      · simp
      · simp [hne]
    have hpos := Finset.card_pos.mpr ⟨v, hwhite⟩
    have hlength : (found root u s v).queue.length = s.queue.length + 1 := List.length_append
    have hcard : ((Finset.range n).filter fun w => (found root u s v).grey w = false).card =
        ((Finset.range n).filter fun w => s.grey w = false).card - 1 := by
      rw [← Finset.card_erase_of_mem hwhite, ← hrest]
      rfl
    unfold remaining
    omega

namespace Searching

theorem init (h : root < n) : Searching adj root n (BFS.start root) := by
  have hdist : ∀ v d, (BFS.start root).dist v = some d → v = root ∧ d = 0 := by
    intro v d hd
    rcases eq_or_ne v root with rfl | hne
    · have hself : (BFS.start v).dist v = some 0 := by simp [BFS.start]
      exact ⟨rfl, (Option.some.inj (hself.symm.trans hd)).symm⟩
    · have hnone : (BFS.start root).dist v = none := by simp [BFS.start, hne]
      rw [hnone] at hd
      cases hd
  have hroot : (BFS.start root).dist root = some 0 := by simp [BFS.start]
  constructor
  case start => exact hroot
  case root_of_zero => exact fun v hv => (hdist v 0 hv).1
  case grey =>
    intro v
    rcases eq_or_ne v root with rfl | hne
    · simp [BFS.start]
    · simp [BFS.start, hne]
  case lt =>
    intro v d hd
    rwa [(hdist v d hd).1]
  case queued =>
    rintro v (_ | ⟨_, hv⟩)
    · exact ⟨0, hroot⟩
    · cases hv
  case sorted => exact List.pairwise_singleton _ _
  case near =>
    intro u rest _ d v e _ he
    rw [(hdist v e he).2]
    exact Nat.zero_le _
  case tree =>
    intro v d hd
    cases (hdist v _ hd).2
  case unknown => exact fun _ _ => ⟨rfl, rfl⟩
  case nextHop_root => rfl
  case done =>
    intro v d hd hv
    rw [(hdist v d hd).1] at hv
    exact absurd List.mem_cons_self hv

section Looking

variable (h : Searching adj root n s) (hq : s.queue = u :: rest) (hd : s.dist u = some d)
include h hq hd

/-- A neighbour that is new is one hop farther than the first node of the queue. -/
theorem found (hv : v ∈ adj u) (hlt : v < n) (hwhite : s.dist v = none) :
    Searching adj root n (BFS.found root u s v) ∧ Later s (BFS.found root u s v) ∧
      (BFS.found root u s v).dist v = some (d + 1) := by
  have hne : ∀ w e, s.dist w = some e → w ≠ v := by
    rintro w e hw rfl
    rw [hwhite] at hw
    cases hw
  have hself : (BFS.found root u s v).dist v = some (d + 1) := by
    change Function.update s.dist v ((s.dist u).map (· + 1)) v = _
    rw [Function.update_self, hd]
    rfl
  have hother : ∀ w, w ≠ v → (BFS.found root u s v).dist w = s.dist w := fun w hw =>
    Function.update_of_ne hw _ _
  have hkeep : ∀ w e, s.dist w = some e → (BFS.found root u s v).dist w = some e := fun w e hw =>
    (hother w (hne w e hw)).trans hw
  have hback : ∀ w e, (BFS.found root u s v).dist w = some e →
      w = v ∧ e = d + 1 ∨ w ≠ v ∧ s.dist w = some e := by
    intro w e hw
    rcases eq_or_ne w v with rfl | hwv
    · exact .inl ⟨rfl, (Option.some.inj (hself.symm.trans hw)).symm⟩
    · exact .inr ⟨hwv, (hother w hwv).symm.trans hw⟩
  refine ⟨?_, ⟨⟨[v], rfl⟩, hkeep⟩, hself⟩
  constructor
  case start => exact hkeep root 0 h.start
  case root_of_zero =>
    intro w hw
    rcases hback w 0 hw with ⟨-, hzero⟩ | ⟨-, hw⟩
    · cases hzero
    · exact h.root_of_zero w hw
  case grey =>
    intro w
    rcases eq_or_ne w v with rfl | hwv
    · exact iff_of_true (Function.update_self w _ _) ⟨d + 1, hself⟩
    · have hcolor : (BFS.found root u s v).grey w = s.grey w := Function.update_of_ne hwv _ _
      rw [hcolor, hother w hwv]
      exact h.grey w
  case lt =>
    intro w e hw
    rcases hback w e hw with ⟨rfl, -⟩ | ⟨-, hw⟩
    · exact hlt
    · exact h.lt w e hw
  case queued =>
    intro w hw
    rcases List.mem_append.mp hw with hw | hw
    · obtain ⟨e, he⟩ := h.queued w hw
      exact ⟨e, hkeep w e he⟩
    · rw [List.mem_singleton.mp hw]
      exact ⟨d + 1, hself⟩
  case sorted =>
    apply List.pairwise_append.mpr
    refine ⟨?_, List.pairwise_singleton _ _, ?_⟩
    · apply h.sorted.imp_of_mem
      intro a b ha hb hab x y hx hy
      obtain ⟨x', hx'⟩ := h.queued a ha
      obtain ⟨y', hy'⟩ := h.queued b hb
      rw [hkeep a x' hx'] at hx
      rw [hkeep b y' hy'] at hy
      exact hab x y (hx'.trans hx) (hy'.trans hy)
    · intro a ha b hb x y hx hy
      rw [List.mem_singleton.mp hb, hself] at hy
      obtain rfl := Option.some.inj hy
      rcases hback a x hx with ⟨-, rfl⟩ | ⟨-, hx⟩
      · exact le_rfl
      · exact h.near u rest hq d a x hd hx
  case near =>
    intro u' rest' hq' d' w e hd' he
    have hqueue : (BFS.found root u s v).queue = s.queue ++ [v] := rfl
    rw [hqueue, hq, List.cons_append] at hq'
    obtain rfl := (List.cons.inj hq').1
    rw [hkeep u d hd] at hd'
    obtain rfl := Option.some.inj hd'
    rcases hback w e he with ⟨-, rfl⟩ | ⟨-, he⟩
    · exact le_rfl
    · exact h.near u rest hq d w e hd he
  case tree =>
    intro w e hw
    have hnext : ∀ p, p ≠ v → (BFS.found root u s v).nextHop p = s.nextHop p := fun p hp =>
      Function.update_of_ne hp _ _
    rcases hback w _ hw with ⟨rfl, he⟩ | ⟨hwv, hw⟩
    · obtain rfl := Nat.succ.inj he
      refine ⟨u, Function.update_self w _ _, hkeep u _ hd, hv, ?_⟩
      rw [hnext u (hne u _ hd)]
      exact Function.update_self w _ _
    · obtain ⟨p, hp, hdp, hadj, hfirst⟩ := h.tree w e hw
      refine ⟨p, (Function.update_of_ne hwv _ _).trans hp, hkeep p e hdp, hadj, ?_⟩
      rw [hnext w hwv, hnext p (hne p e hdp)]
      exact hfirst
  case unknown =>
    intro w hw
    rcases eq_or_ne w v with rfl | hwv
    · rw [hself] at hw
      cases hw
    · obtain ⟨hparent, hnext⟩ := h.unknown w ((hother w hwv).symm.trans hw)
      exact ⟨(Function.update_of_ne hwv _ _).trans hparent,
        (Function.update_of_ne hwv _ _).trans hnext⟩
  case nextHop_root =>
    exact (Function.update_of_ne (hne root 0 h.start) _ _).trans h.nextHop_root
  case done =>
    intro w e hw hnot x hx
    rcases hback w e hw with ⟨rfl, -⟩ | ⟨-, hw⟩
    · exact absurd (List.mem_append_right _ (List.mem_singleton_self w)) hnot
    · obtain ⟨y, hy, hle⟩ := h.done w e hw (fun hin => hnot (List.mem_append_left _ hin)) x hx
      exact ⟨y, hkeep x y hy, hle⟩

theorem look (hv : v ∈ adj u) (hlt : v < n) :
    Searching adj root n (BFS.look root u s v) ∧ Later s (BFS.look root u s v) ∧
      ∃ e, (BFS.look root u s v).dist v = some e ∧ e ≤ d + 1 := by
  unfold BFS.look
  split_ifs with hgrey
  · obtain ⟨e, he⟩ := (h.grey v).mp hgrey
    exact ⟨h, .refl s, e, he, h.near u rest hq d v e hd he⟩
  · have hwhite : s.dist v = none := by
      cases he : s.dist v with
      | none => rfl
      | some e => exact absurd ((h.grey v).mpr ⟨e, he⟩) hgrey
    obtain ⟨hfound, hlater, hself⟩ := h.found hq hd hv hlt hwhite
    exact ⟨hfound, hlater, d + 1, hself, le_rfl⟩

/-- All neighbours are known after they have been looked at. -/
theorem look_all (hl : ∀ v ∈ l, v ∈ adj u ∧ v < n) :
    Searching adj root n (l.foldl (BFS.look root u) s) ∧ Later s (l.foldl (BFS.look root u) s) ∧
      remaining n (l.foldl (BFS.look root u) s) = remaining n s ∧
      ∀ v ∈ l, ∃ e, (l.foldl (BFS.look root u) s).dist v = some e ∧ e ≤ d + 1 := by
  induction l generalizing s rest with
  | nil =>
    refine ⟨h, .refl s, rfl, ?_⟩
    rintro v (_ | _)
  | cons v l ih =>
    obtain ⟨hv, hlt⟩ := hl v List.mem_cons_self
    obtain ⟨hlook, hlater, e, he, hle⟩ := h.look hq hd hv hlt
    obtain ⟨more, hmore⟩ := hlater.queue
    rw [hq, List.cons_append] at hmore
    obtain ⟨hall, hlater', hrem, hknown⟩ := ih hlook hmore (hlater.dist u d hd)
      fun w hw => hl w (List.mem_cons_of_mem v hw)
    refine ⟨hall, hlater.trans hlater', hrem.trans (remaining_look hlt), ?_⟩
    rintro w (_ | ⟨_, hw⟩)
    · exact ⟨e, hlater'.dist v e he, hle⟩
    · exact hknown w hw

/-- The first node leaves the queue when all its neighbours are known. -/
theorem pop (hall : ∀ v ∈ adj u, ∃ e, s.dist v = some e ∧ e ≤ d + 1) :
    Searching adj root n { s with queue := rest } := by
  have hsorted := h.sorted
  rw [hq, List.pairwise_cons] at hsorted
  constructor
  case start => exact h.start
  case root_of_zero => exact h.root_of_zero
  case grey => exact h.grey
  case lt => exact h.lt
  case queued =>
    intro v hv
    exact h.queued v (hq ▸ List.mem_cons_of_mem u hv)
  case sorted => exact hsorted.2
  case near =>
    intro u' rest' hq' d' v e hd' he
    have hle := hsorted.1 u' (by rw [show rest = u' :: rest' from hq']; exact List.mem_cons_self)
      d d' hd hd'
    exact (h.near u rest hq d v e hd he).trans (Nat.add_le_add_right hle 1)
  case tree => exact h.tree
  case unknown => exact h.unknown
  case nextHop_root => exact h.nextHop_root
  case done =>
    intro v e he hnot
    rcases eq_or_ne v u with rfl | hne
    · obtain rfl := Option.some.inj (hd.symm.trans he)
      exact hall
    · apply h.done v e he
      rw [hq]
      exact fun hin => (List.mem_cons.mp hin).elim hne hnot

end Looking

/-- The loop ends after one round for each node that is found. -/
theorem run (hadj : ∀ u < n, ∀ v ∈ adj u, v < n) {k : ℕ} (h : Searching adj root n s)
    (hk : remaining n s ≤ k) :
    ∃ s', BFS.run adj root k s = some s' ∧ Searching adj root n s' ∧ s'.queue = [] := by
  induction k generalizing s with
  | zero =>
    have hempty : s.queue = [] := by
      apply List.eq_nil_of_length_eq_zero
      unfold remaining at hk
      omega
    exact ⟨s, if_pos hempty, h, hempty⟩
  | succ k ih =>
    rw [BFS.run]
    split
    · next hempty => exact ⟨s, rfl, h, hempty⟩
    · next u rest hq =>
      obtain ⟨d, hd⟩ := h.queued u (hq ▸ List.mem_cons_self)
      obtain ⟨hall, hlater, hrem, hknown⟩ := h.look_all hq hd fun v hv =>
        ⟨hv, hadj u (h.lt u d hd) v hv⟩
      obtain ⟨more, hmore⟩ := hlater.queue
      rw [hq, List.cons_append] at hmore
      have hpop := hall.pop hmore (hlater.dist u d hd) hknown
      apply ih
      · rw [hmore, List.tail_cons]
        exact hpop
      · rw [← hrem] at hk
        unfold remaining at hk ⊢
        rw [hmore, List.length_cons] at hk
        dsimp only
        rw [hmore, List.tail_cons]
        omega

/-! ## The routes -/

/-- A distance is reached by a walk. -/
theorem walk (h : Searching adj root n s) (hd : s.dist v = some d) :
    Walk (Hop adj) root v d := by
  induction d generalizing v with
  | zero =>
    rw [h.root_of_zero v hd]
    exact .nil
  | succ d ih =>
    obtain ⟨p, -, hp, hadj, -⟩ := h.tree v d hd
    exact (ih hp).snoc ⟨hadj, rfl⟩

/-- At the end of the search nothing is nearer than its distance. -/
theorem le_of_walk (h : Searching adj root n s) (hend : s.queue = [])
    (hw : Walk (Hop adj) root v d) : ∃ e, s.dist v = some e ∧ e ≤ d := by
  induction hw with
  | nil => exact ⟨0, h.start, le_rfl⟩
  | snoc _ he ih =>
    obtain ⟨hadj, rfl⟩ := he
    obtain ⟨e, hdist, hle⟩ := ih
    obtain ⟨e', hdist', hle'⟩ := h.done _ e hdist (by rw [hend]; exact List.not_mem_nil) _ hadj
    exact ⟨e', hdist', hle'.trans (Nat.add_le_add_right hle 1)⟩

theorem dist_eq_some_iff (h : Searching adj root n s) (hend : s.queue = []) :
    s.dist v = some d ↔ LeastCost (Hop adj) root v d := by
  constructor
  · intro hd
    refine ⟨h.walk hd, fun c hc => ?_⟩
    obtain ⟨e, he, hle⟩ := h.le_of_walk hend hc
    rwa [Option.some.inj (hd.symm.trans he)]
  · rintro ⟨hw, hleast⟩
    obtain ⟨e, he, hle⟩ := h.le_of_walk hend hw
    rw [he, le_antisymm hle (hleast e (h.walk he))]

/-- A route passes a node of each smaller distance. -/
theorem dist_lt (h : Searching adj root n s) (hd : s.dist v = some d) : d < n := by
  have hnode : ∀ i, ∃ w, i ≤ d → s.dist w = some i := by
    intro i
    by_cases hi : i ≤ d
    · induction d generalizing v with
      | zero => exact ⟨v, fun _ => (Nat.le_zero.mp hi) ▸ hd⟩
      | succ d ih =>
        rcases eq_or_lt_of_le hi with rfl | hlt
        · exact ⟨v, fun _ => hd⟩
        · obtain ⟨p, -, hp, -⟩ := h.tree v d hd
          obtain ⟨w, hw⟩ := ih hp (Nat.le_of_lt_succ hlt)
          exact ⟨w, fun _ => hw (Nat.le_of_lt_succ hlt)⟩
    · exact ⟨0, fun hle => absurd hle hi⟩
  choose f hf using hnode
  have hcard : (Finset.range (d + 1)).card ≤ (Finset.range n).card := by
    apply Finset.card_le_card_of_injOn f
    · intro i hi
      have hi := Nat.le_of_lt_succ (Finset.mem_range.mp hi)
      exact Finset.mem_coe.mpr (Finset.mem_range.mpr (h.lt _ _ (hf i hi)))
    · intro i hi j hj hij
      have hi := hf i (Nat.le_of_lt_succ (Finset.mem_range.mp hi))
      have hj := hf j (Nat.le_of_lt_succ (Finset.mem_range.mp hj))
      rw [hij, hj] at hi
      exact (Option.some.inj hi).symm
  rwa [Finset.card_range, Finset.card_range] at hcard

end Searching

theorem isRoute_concat : IsRoute adj u (hops ++ [v]) ↔
    IsRoute adj u hops ∧ v ∈ adj (hops.getLastD u) := by
  induction hops generalizing u with
  | nil => simp [IsRoute]
  | cons t hops ih =>
    rw [List.cons_append, IsRoute, IsRoute, ih, List.getLastD_cons, and_assoc]

theorem hopPairs_concat : hopPairs adj u (hops ++ [v]) =
    hopPairs adj u hops ++ [getNix (adj (hops.getLastD u)) v] := by
  induction hops generalizing u with
  | nil => rfl
  | cons t hops ih =>
    rw [List.cons_append, hopPairs, hopPairs, ih, List.getLastD_cons, List.cons_append]

theorem nixPred_self {pred : ℕ → Option ℕ} (k : ℕ) (nv : NixVec) :
    nixPred adj pred v k v nv = some nv := by
  cases k with
  | zero => rw [nixPred, if_pos (.inl rfl)]
  | succ k => rw [nixPred, if_pos rfl]

/-- The parents lead back along a route, whose pairs are added to the vector. -/
theorem Searching.route (h : Searching adj root n s) (hlen : ∀ u, (adj u).length ≤ nixNone)
    (hd : s.dist v = some d) :
    ∃ hops, IsRoute adj root hops ∧ hops.length = d ∧ hops.getLastD root = v ∧
      s.nextHop v = hops.head? ∧
      ∀ k nv, d ≤ k →
        nixPred adj s.parent root k v nv = some ((hopPairs adj root hops).foldl .add nv) := by
  induction d generalizing v with
  | zero =>
    obtain rfl := h.root_of_zero v hd
    refine ⟨[], trivial, rfl, rfl, h.nextHop_root, fun k nv _ => ?_⟩
    exact nixPred_self k nv
  | succ d ih =>
    obtain ⟨p, hparent, hp, hadj, hnext⟩ := h.tree v d hd
    obtain ⟨hops, hroute, hlength, hlast, hfirst, hpairs⟩ := ih hp
    refine ⟨hops ++ [v], isRoute_concat.mpr ⟨hroute, hlast ▸ hadj⟩, ?_, ?_, ?_, ?_⟩
    · rw [List.length_append, hlength, List.length_singleton]
    · rw [List.getLastD_eq_getLast?, List.getLast?_append, List.getLast?_singleton]
      rfl
    · rw [hnext]
      split_ifs with hroot
      · have hzero : d = 0 := Option.some.inj (hp.symm.trans (hroot ▸ h.start))
        rw [List.eq_nil_of_length_eq_zero (hlength.trans hzero)]
        rfl
      · have hpos : d ≠ 0 := by
          rintro rfl
          exact hroot (h.root_of_zero p hp)
        rw [hfirst]
        cases hops with
        | nil => exact absurd hlength.symm hpos
        | cons t hops => rfl
    · intro k nv hk
      have hne : root ≠ v := by
        rintro rfl
        cases (h.start.symm.trans hd)
      obtain ⟨k, rfl⟩ := Nat.exists_eq_add_one_of_ne_zero (Nat.ne_zero_of_lt hk)
      obtain ⟨i, hi, hlt, -, -⟩ := getNix_of_mem hadj
      have hindex : (getNix (adj p) v).1 ≠ nixNone := by
        rw [hi]
        exact (hlt.trans_le (hlen p)).ne
      rw [nixPred, if_neg hne, hparent]
      dsimp only
      rw [hpairs k nv (Nat.le_of_succ_le_succ hk), Option.bind_some, if_neg hindex,
        hopPairs_concat, List.foldl_append, hlast]
      rfl

/-- A node to which no route leads gets an empty vector. -/
theorem Searching.no_route (h : Searching adj root n s) (hd : s.dist v = none) (k : ℕ) :
    nixPred adj s.parent root k v nv = some nv := by
  cases k with
  | zero => rw [nixPred, if_pos (.inr (h.unknown v hd).1)]
  | succ k =>
    rw [nixPred, (h.unknown v hd).1]
    split_ifs <;> rfl

/-- What a search from a root tells of a target. -/
structure Tells (adj : ℕ → List ℕ) (n root : ℕ) (s : BFS) (t : ℕ) : Prop where
  dist : ∀ d, s.dist t = some d ↔ LeastCost (Hop adj) root t d
  route : ∀ d, LeastCost (Hop adj) root t d → ∃ hops, IsRoute adj root hops ∧ hops.length = d ∧
    hops.getLastD root = t ∧ s.nextHop t = hops.head? ∧
    computeNixVector adj n root t = some (.ofPairs (hopPairs adj root hops))
  noRoute : (∀ d, ¬ Walk (Hop adj) root t d) → s.parent t = none ∧ s.nextHop t = none ∧
    computeNixVector adj n root t = some {}

/-- The search ends, and distances, next hops and the vector of every target are those of a shortest
route. Where no route leads, the vector is empty. -/
theorem bfs_shortest (hroot : root < n) (hadj : ∀ u < n, ∀ v ∈ adj u, v < n)
    (hlen : ∀ u, (adj u).length ≤ nixNone) :
    ∃ s, run adj root n (start root) = some s ∧ ∀ t, Tells adj n root s t := by
  obtain ⟨s, hs, h, hend⟩ := (Searching.init hroot).run hadj (remaining_start hroot).le
  refine ⟨s, hs, fun t => ?_⟩
  have hnix : computeNixVector adj n root t = nixPred adj s.parent root n t {} := by
    rw [computeNixVector, hs]
    rfl
  constructor
  case dist => exact fun d => h.dist_eq_some_iff hend
  case route =>
    intro d hd
    have hdist := (h.dist_eq_some_iff hend).mpr hd
    obtain ⟨hops, hr, hlength, hlast, hfirst, hpairs⟩ := h.route hlen hdist
    exact ⟨hops, hr, hlength, hlast, hfirst, hnix.trans (hpairs n {} (h.dist_lt hdist).le)⟩
  case noRoute =>
    intro hnone
    have hdist : s.dist t = none := by
      cases hdist : s.dist t with
      | none => rfl
      | some d => exact absurd (h.walk hdist) (hnone d)
    obtain ⟨hparent, hnext⟩ := h.unknown t hdist
    exact ⟨hparent, hnext, hnix.trans (h.no_route hdist n)⟩

/-- A square of four nodes, and a fifth one to which no edge leads. -/
theorem bfs_shortest_square : ∃ s,
    run (fun u => if u < 4 then [(u + 1) % 4, (u + 3) % 4] else []) 0 5 (start 0) = some s ∧
      ∀ t, Tells (fun u => if u < 4 then [(u + 1) % 4, (u + 3) % 4] else []) 5 0 s t := by
  apply bfs_shortest
  · decide
  · decide
  · intro u
    split_ifs
    · exact (by decide : 2 ≤ nixNone)
    · exact Nat.zero_le _

end BFS

end Ns2XPass
