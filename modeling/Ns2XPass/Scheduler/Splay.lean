import Ns2XPass.Scheduler.Basic

/-! # The splay-tree scheduler

`insert` splays from the top down, `deque` rotates on its way to the leftmost
event, and `cancel` finds an event by its time and uid. Each of them keeps the
events in order when the tree is read from left to right.
-/

namespace Ns2XPass

inductive SplayTree (η : Type)
  | nil
  | node (left : SplayTree η) (event : Event η) (right : SplayTree η)
  deriving DecidableEq

structure SplayScheduler (η : Type) where
  root : SplayTree η := .nil
  qsize : ℤ := 0
  deriving DecidableEq

namespace SplayTree

variable {η : Type}

/-- Puts a tree below the bottom right of the left tree. -/
def plugLeft : List (SplayTree η × Event η) → SplayTree η → SplayTree η
  | [], x => x
  | (a, e) :: l, x => plugLeft l (.node a e x)

/-- Puts a tree below the bottom left of the right tree. -/
def plugRight : List (Event η × SplayTree η) → SplayTree η → SplayTree η
  | [], x => x
  | (e, b) :: r, x => plugRight r (.node x e b)

/-- The loop of `insert`. The nodes of `l` and `r` are those that `LINK_LEFT` and `LINK_RIGHT` have
put on the two trees, the bottom one first. -/
def splayLoop (time : ℚ) : SplayTree η → List (SplayTree η × Event η) →
    List (Event η × SplayTree η) → SplayTree η × SplayTree η
  | .nil, l, r => (plugLeft l .nil, plugRight r .nil)
  | .node a t b, l, r =>
    if time < t.time then
      match a with
      | .nil => (plugLeft l .nil, plugRight r (.node .nil t b))
      | x@(.node a' e b') =>
        -- `ROTATE_RIGHT` before `LINK_RIGHT`
        if time < e.time then splayLoop time a' l ((e, .node b' t b) :: r)
        else splayLoop time x l ((t, b) :: r)
    else
      match b with
      | .nil => (plugLeft l (.node a t .nil), plugRight r .nil)
      | x@(.node a' e b') =>
        -- `ROTATE_LEFT` before `LINK_LEFT`
        if e.time ≤ time then splayLoop time b' ((.node a t a', e) :: l) r
        else splayLoop time x ((a, t) :: l) r

def insert (n : Event η) : SplayTree η → SplayTree η
  | .nil => .node .nil n .nil
  | root =>
    let (l, r) := splayLoop n.time root [] []
    .node l n r

def head : SplayTree η → Option (Event η)
  | .nil => none
  | .node .nil t _ => some t
  | .node l _ _ => head l

/-- The loop of `deque`: `t` has the children `l` and `b`. -/
def dequeLoop : SplayTree η → Event η → SplayTree η → Event η × SplayTree η
  | .nil, t, b => (t, b)
  | .node .nil l lb, t, b => (l, .node lb t b)
  | .node (.node .nil ll llb) l lb, t, b => (ll, .node (.node llb l lb) t b)
  | .node (.node lll ll llb) l lb, t, b =>
    let (e, x) := dequeLoop lll ll (.node llb l lb)
    (e, .node x t b)

def deque : SplayTree η → Option (Event η) × SplayTree η
  | .nil => (none, .nil)
  | .node l t b =>
    let (e, root) := dequeLoop l t b
    (some e, root)

/-- The successor, which is the leftmost event below `p`, and the tree without it. -/
def successor : SplayTree η → Event η → SplayTree η → Event η × SplayTree η
  | .nil, p, b => (p, b)
  | .node a q b', p, b =>
    let (e, x) := successor a q b'
    (e, .node x p b)

/-- What `cancel` puts in the place of an event. -/
def join : SplayTree η → SplayTree η → SplayTree η
  | l, .nil => l
  | .nil, r => r
  | l, .node a p b =>
    let (q, x) := successor a p b
    .node l q x

/-- The search of `cancel`. -/
def remove [DecidableEq η] (e : Event η) : SplayTree η → Except SchedulerAbort (SplayTree η)
  | .nil => .error .notQueued
  | .node l t r =>
    if t = e then .ok (join l r)
    else if t.time < e.time ∨ e.time = t.time ∧ t.uid < e.uid then (remove e r).map (.node l t)
    else (remove e l).map (.node · t r)

def lookup (uid : ℤ) : SplayTree η → Option (Event η)
  | .nil => none
  | .node l t r => if t.uid = uid then some t else (lookup uid l).or (lookup uid r)

end SplayTree

def splayScheduler (η : Type) [DecidableEq η] : SchedulerClass η (SplayScheduler η) where
  insert n s := .ok { root := s.root.insert n, qsize := s.qsize + 1 }
  cancel e s :=
    if e.uid ≤ 0 then .ok (e, s)
    else (s.root.remove e).map fun root => (e.negateUid, { root, qsize := s.qsize - 1 })
  lookup u s := s.root.lookup u
  deque s :=
    match s.root.deque with
    | (none, _) => .ok (none, s)
    | (some e, root) => .ok (some e, { root, qsize := s.qsize - 1 })
  head s := .ok (s.root.head, s)

namespace SplayTree

variable {η : Type} {e : Event η} {t : SplayTree η}

/-- The events of the tree from left to right. -/
def inorder : SplayTree η → List (Event η)
  | .nil => []
  | .node l t r => l.inorder ++ t :: r.inorder

@[simp] theorem inorder_nil : (nil : SplayTree η).inorder = [] := rfl

@[simp] theorem inorder_node (l r : SplayTree η) (t : Event η) :
    (node l t r).inorder = l.inorder ++ t :: r.inorder := rfl

theorem inorder_plugLeft (l : List (SplayTree η × Event η)) (x : SplayTree η) :
    (plugLeft l x).inorder = (plugLeft l nil).inorder ++ x.inorder := by
  induction l generalizing x with
  | nil => simp [plugLeft]
  | cons p l ih =>
    rw [plugLeft, plugLeft, ih, ih (node p.1 p.2 nil)]
    simp

theorem inorder_plugRight (r : List (Event η × SplayTree η)) (x : SplayTree η) :
    (plugRight r x).inorder = x.inorder ++ (plugRight r nil).inorder := by
  induction r generalizing x with
  | nil => simp [plugRight]
  | cons p r ih =>
    rw [plugRight, plugRight, ih, ih (node nil p.1 p.2)]
    simp

theorem inorder_plugLeft_cons (a : SplayTree η) (l : List (SplayTree η × Event η)) :
    (plugLeft ((a, e) :: l) nil).inorder = (plugLeft l nil).inorder ++ a.inorder ++ [e] := by
  rw [plugLeft, inorder_plugLeft]
  simp

theorem inorder_plugRight_cons (b : SplayTree η) (r : List (Event η × SplayTree η)) :
    (plugRight ((e, b) :: r) nil).inorder = e :: b.inorder ++ (plugRight r nil).inorder := by
  rw [plugRight, inorder_plugRight]
  simp

/-- Events in the order of their times. -/
abbrev TimeOrdered (es : List (Event η)) : Prop := es.Pairwise fun a b => a.time ≤ b.time

theorem TimeOrdered.lt_time {time : ℚ} {es : List (Event η)} (h : TimeOrdered (e :: es))
    (he : time < e.time) : ∀ x ∈ e :: es, time < x.time := by
  intro x hx
  rcases List.mem_cons.mp hx with rfl | hx
  · exact he
  · exact he.trans_le ((List.pairwise_cons.mp h).1 x hx)

theorem TimeOrdered.time_le {time : ℚ} {es : List (Event η)} (h : TimeOrdered (es ++ [e]))
    (he : e.time ≤ time) : ∀ x ∈ es ++ [e], x.time ≤ time := by
  intro x hx
  rcases List.mem_append.mp hx with hx | hx
  · exact ((List.pairwise_append.mp h).2.2 x hx e List.mem_cons_self).trans he
  · rwa [List.mem_singleton.mp hx]

/-- The loop splits the events of the tree at the time, whatever it rotates on its way. -/
theorem splayLoop_inorder (time : ℚ) (l : List (SplayTree η × Event η))
    (r : List (Event η × SplayTree η)) (h : TimeOrdered t.inorder) :
    ∃ as bs, t.inorder = as ++ bs ∧ (∀ x ∈ as, x.time ≤ time) ∧ (∀ x ∈ bs, time < x.time) ∧
      (splayLoop time t l r).1.inorder = (plugLeft l nil).inorder ++ as ∧
      (splayLoop time t l r).2.inorder = bs ++ (plugRight r nil).inorder := by
  fun_induction splayLoop time t l r with
  | case1 l r => exact ⟨[], [], rfl, by simp, by simp, by simp, by simp⟩
  | case2 t b l r ht =>
    refine ⟨[], t :: b.inorder, rfl, by simp, TimeOrdered.lt_time h ht, by simp, ?_⟩
    rw [inorder_plugRight]
    rfl
  | case3 t b l r ht a' e b' he ih =>
    simp only [inorder_node, List.append_assoc] at h
    obtain ⟨ha, hb, -⟩ := List.pairwise_append.mp h
    obtain ⟨as, bs, hs, hle, hlt, hl, hr⟩ := ih ha
    refine ⟨as, bs ++ e :: (b'.inorder ++ t :: b.inorder), by simp [hs], hle, ?_, hl, ?_⟩
    · intro x hx
      exact (List.mem_append.mp hx).elim (hlt x) (TimeOrdered.lt_time hb he x)
    · rw [hr, inorder_plugRight_cons]
      simp
  | case4 t b l r ht a' e b' he ih =>
    obtain ⟨ha, hb, -⟩ := List.pairwise_append.mp h
    obtain ⟨as, bs, hs, hle, hlt, hl, hr⟩ := ih ha
    refine ⟨as, bs ++ t :: b.inorder, ?_, hle, ?_, hl, ?_⟩
    · rw [inorder_node, hs, List.append_assoc]
    · intro x hx
      exact (List.mem_append.mp hx).elim (hlt x) (TimeOrdered.lt_time hb ht x)
    · rw [hr, inorder_plugRight_cons]
      simp
  | case5 a t l r ht =>
    have h' : TimeOrdered (a.inorder ++ [t]) := h
    refine ⟨a.inorder ++ [t], [], by simp, h'.time_le (not_lt.mp ht), by simp, ?_, by simp⟩
    rw [inorder_plugLeft]
    rfl
  | case6 a t l r ht a' e b' he ih =>
    have hsplit : (node a t (node a' e b')).inorder =
        (a.inorder ++ t :: a'.inorder ++ [e]) ++ b'.inorder := by simp
    rw [hsplit] at h ⊢
    obtain ⟨ha, hb, -⟩ := List.pairwise_append.mp h
    obtain ⟨as, bs, hs, hle, hlt, hl, hr⟩ := ih hb
    refine ⟨a.inorder ++ t :: a'.inorder ++ [e] ++ as, bs, by simp [hs], ?_, hlt, ?_, hr⟩
    · intro x hx
      exact (List.mem_append.mp hx).elim (TimeOrdered.time_le ha he x) (hle x)
    · rw [hl, inorder_plugLeft_cons]
      simp
  | case7 a t l r ht a' e b' he ih =>
    have hsplit : (node a t (node a' e b')).inorder =
        (a.inorder ++ [t]) ++ (node a' e b').inorder := by simp
    rw [hsplit] at h ⊢
    obtain ⟨ha, hb, -⟩ := List.pairwise_append.mp h
    obtain ⟨as, bs, hs, hle, hlt, hl, hr⟩ := ih hb
    refine ⟨a.inorder ++ [t] ++ as, bs, ?_, ?_, hlt, ?_, hr⟩
    · rw [hs, ← List.append_assoc]
    · intro x hx
      exact (List.mem_append.mp hx).elim (TimeOrdered.time_le ha (not_lt.mp ht) x) (hle x)
    · rw [hl, inorder_plugLeft_cons]
      simp

/-- The rotations of `deque` keep the order, and it takes the first event. -/
theorem dequeLoop_inorder (l : SplayTree η) (t : Event η) (b : SplayTree η) :
    l.inorder ++ t :: b.inorder = (dequeLoop l t b).1 :: (dequeLoop l t b).2.inorder := by
  fun_induction dequeLoop l t b with
  | case1 t b => rfl
  | case2 l lb t b => simp
  | case3 ll llb l lb t b => simp
  | case4 lll ll llb l lb t b h e x hx ih =>
    rw [hx] at ih
    calc (node (node lll ll llb) l lb).inorder ++ t :: b.inorder
        = (lll.inorder ++ ll :: (node llb l lb).inorder) ++ t :: b.inorder := by simp
      _ = e :: (node x t b).inorder := by rw [ih]; rfl

theorem head_eq (t : SplayTree η) : t.head = t.inorder.head? := by
  fun_induction head t with
  | case1 => rfl
  | case2 t r => rfl
  | case3 l t r h ih =>
    rw [ih]
    cases l with
    | nil => exact absurd rfl h
    | node a e b => simp [List.head?_append]

theorem deque_eq (t : SplayTree η) :
    t.deque.1 = t.inorder.head? ∧ t.deque.2.inorder = t.inorder.tail := by
  cases t with
  | nil => exact ⟨rfl, rfl⟩
  | node l t b =>
    rw [inorder_node, dequeLoop_inorder l t b]
    exact ⟨rfl, rfl⟩

theorem successor_inorder (l : SplayTree η) (t : Event η) (b : SplayTree η) :
    l.inorder ++ t :: b.inorder = (successor l t b).1 :: (successor l t b).2.inorder := by
  fun_induction successor l t b with
  | case1 t b => rfl
  | case2 a q b' t b e x hx ih =>
    rw [hx] at ih
    rw [inorder_node, ih]
    rfl

theorem join_inorder (l r : SplayTree η) : (join l r).inorder = l.inorder ++ r.inorder := by
  cases r with
  | nil => simp [join]
  | node a p b =>
    cases l with
    | nil => simp [join]
    | node c t d =>
      rw [inorder_node a, successor_inorder a p b]
      rfl

theorem lookup_eq_some {u : ℤ} (h : t.lookup u = some e) : e ∈ t.inorder ∧ e.uid = u := by
  induction t with
  | nil => cases h
  | node l t r ihl ihr =>
    rw [lookup] at h
    split_ifs at h with hu
    · obtain rfl := Option.some.inj h
      exact ⟨by simp, hu⟩
    · rcases Option.or_eq_some_iff.mp h with h | ⟨-, h⟩
      · exact (ihl h).imp_left fun hm => List.mem_append_left _ hm
      · exact (ihr h).imp_left fun hm => List.mem_append_right _ (.tail t hm)

theorem lookup_eq_none {u : ℤ} (h : t.lookup u = none) : ∀ e ∈ t.inorder, e.uid ≠ u := by
  induction t with
  | nil => intro e he; cases he
  | node l t r ihl ihr =>
    rw [lookup] at h
    split_ifs at h with hu
    obtain ⟨hl, hr⟩ := Option.or_eq_none_iff.mp h
    intro e he
    rcases List.mem_append.mp he with he | he
    · exact ihl hl e he
    · rcases List.mem_cons.mp he with rfl | he
      · exact hu
      · exact ihr hr e he

/-- The search by time and uid ends at the event. -/
theorem remove_eq [DecidableEq η] (h : InOrder Event.key t.inorder) (he : e ∈ t.inorder) :
    ∃ t', t.remove e = .ok t' ∧ t'.inorder = t.inorder.erase e := by
  induction t with
  | nil => cases he
  | node l t r ihl ihr =>
    obtain ⟨hl, hr, hlr⟩ := inOrder_append.mp h
    obtain ⟨htr, hr⟩ := inOrder_cons.mp hr
    rw [remove, inorder_node]
    split_ifs with ht hlt
    · subst ht
      have hnl : t ∉ l.inorder := fun hm => absurd (hlr t hm t List.mem_cons_self) (lt_irrefl _)
      refine ⟨join l r, rfl, ?_⟩
      rw [join_inorder, List.erase_append_right _ hnl, List.erase_cons_head]
    · have hkey : t.key < e.key := Event.key_lt_iff.mpr (hlt.imp_right fun h => ⟨h.1.symm, h.2⟩)
      have hnl : e ∉ l.inorder := fun hm => hkey.asymm (hlr e hm t List.mem_cons_self)
      have hmr : e ∈ r.inorder := by
        rcases List.mem_append.mp he with hm | hm
        · exact absurd hm hnl
        · exact (List.mem_cons.mp hm).resolve_left fun h => ht h.symm
      obtain ⟨r', hr', hi⟩ := ihr hr hmr
      refine ⟨node l t r', by rw [hr']; rfl, ?_⟩
      rw [inorder_node, hi, List.erase_append_right _ hnl,
        List.erase_cons_tail (by simpa using ht)]
    · have hml : e ∈ l.inorder := by
        rcases List.mem_append.mp he with hm | hm
        · exact hm
        · have hm := (List.mem_cons.mp hm).resolve_left fun h => ht h.symm
          have hkey := Event.key_lt_iff.mp (htr e hm)
          exact absurd (hkey.imp_right fun h => ⟨h.1.symm, h.2⟩) hlt
      obtain ⟨l', hl', hi⟩ := ihl hl hml
      refine ⟨node l' t r, by rw [hl']; rfl, ?_⟩
      rw [inorder_node, hi, List.erase_append_left _ hml]

/-- The new event comes behind those that are due no later. -/
theorem insert_inorder {n : Event η} (h : InOrder Event.key t.inorder)
    (hu : ∀ x ∈ t.inorder, x.uid < n.uid) :
    InOrder Event.key (t.insert n).inorder ∧ ((t.insert n).inorder).Perm (n :: t.inorder) := by
  cases t with
  | nil => exact ⟨List.pairwise_singleton _ n, .refl _⟩
  | node a e b =>
    have ht : TimeOrdered (node a e b).inorder := h.imp fun h => Event.time_le_of_key h.le
    obtain ⟨as, bs, hs, hle, hlt, hl, hr⟩ := splayLoop_inorder n.time [] [] ht
    have hi : (insert n (node a e b)).inorder = as ++ n :: bs := by
      change (splayLoop n.time (node a e b) [] []).1.inorder ++
        n :: (splayLoop n.time (node a e b) [] []).2.inorder = as ++ n :: bs
      rw [hl, hr]
      simp [plugLeft, plugRight]
    rw [hi, hs]
    rw [hs] at h hu
    refine ⟨h.insert (fun x hx => ?_) (fun x hx => ?_), List.perm_middle⟩
    · have hm : x ∈ as := List.mem_of_getLast? hx
      exact Event.key_lt_of_time (hle x hm) (hu x (List.mem_append_left bs hm))
    · exact Event.key_lt_iff.mpr (.inl (hlt x (List.mem_of_mem_head? hx)))

end SplayTree

namespace SplayScheduler

variable {η : Type} {s : SplayScheduler η}

/-- The tree is in order, and `qsize_` counts its events. -/
structure Valid (s : SplayScheduler η) : Prop where
  inOrder : InOrder Event.key s.root.inorder
  qsize : s.qsize = s.root.inorder.length

def events (s : SplayScheduler η) : Multiset (Event η) := s.root.inorder

theorem valid_new : ({} : SplayScheduler η).Valid := ⟨inOrder_nil, rfl⟩

theorem Valid.least_head (h : s.Valid) : Least s.events s.root.inorder.head? := by
  cases hi : s.root.inorder with
  | nil => exact (Multiset.coe_eq_zero _).mpr hi
  | cons e es =>
    have hm : ∀ x, x ∈ s.events ↔ x ∈ e :: es := fun x => by rw [events, hi, Multiset.mem_coe]
    refine ⟨(hm e).mpr List.mem_cons_self, fun x hx => ?_⟩
    rcases List.mem_cons.mp ((hm x).mp hx) with rfl | hx
    · exact le_rfl
    · exact ((inOrder_cons.mp (hi ▸ h.inOrder)).1 x hx).le

theorem serves [DecidableEq η] : Serves (splayScheduler η) Valid events fun _ _ => True where
  insert s n h _ hu := by
    obtain ⟨hi, hp⟩ := SplayTree.insert_inorder h.inOrder hu
    refine ⟨_, rfl, ⟨hi, ?_⟩, Multiset.coe_eq_coe.mpr hp⟩
    simp [hp.length_eq, h.qsize]
  cancel s e h he hp := by
    obtain ⟨t, ht, hi⟩ := SplayTree.remove_eq h.inOrder (Multiset.mem_coe.mp he)
    refine ⟨{ root := t, qsize := s.qsize - 1 }, ?_, ⟨?_, ?_⟩, ?_⟩
    · simp only [splayScheduler, if_neg hp.not_ge, ht]
      rfl
    · rw [hi]
      exact h.inOrder.sublist List.erase_sublist
    · have hlen := List.length_erase_add_one (Multiset.mem_coe.mp he)
      rw [hi, h.qsize, ← hlen]
      simp
    · rw [events, events, hi]
      exact Multiset.coe_eq_coe.mpr (List.perm_cons_erase (Multiset.mem_coe.mp he))
  lookup_some _ _ _ _ hl := SplayTree.lookup_eq_some hl
  lookup_none _ _ _ hl := SplayTree.lookup_eq_none hl
  head s h := ⟨s.root.head, s, rfl, h, rfl, by rw [SplayTree.head_eq]; exact h.least_head⟩
  deque s h := by
    have hle := h.least_head
    obtain ⟨hd, ht⟩ := SplayTree.deque_eq s.root
    cases hdq : s.root.deque with
    | mk o root =>
      rw [hdq] at hd ht
      rw [← hd] at hle
      cases o with
      | none =>
        exact ⟨none, s, by simp only [splayScheduler, hdq], h, hle,
          (Multiset.zero_add s.events).symm⟩
      | some e =>
        have hi : s.root.inorder = e :: root.inorder :=
          ht ▸ (List.cons_head?_tail (Option.mem_def.mpr hd.symm)).symm
        refine ⟨some e, { root, qsize := s.qsize - 1 }, by simp only [splayScheduler, hdq],
          ⟨?_, ?_⟩, hle, ?_⟩
        · exact (inOrder_cons.mp (hi ▸ h.inOrder)).2
        · rw [h.qsize, hi]
          simp
        · rw [events, hi]
          rfl

end SplayScheduler

/-- Every sequence of legal calls gets the answers of the sorted list: the tree hands out the
pending events in their turn, and holds them in order. No call aborts. -/
theorem splay_refines_list {η : Type} [DecidableEq η] {xs : List (SchedulerCall η)}
    (hx : LegalCalls pendingEvents.call LegalCall xs []) :
    ∃ os s q p, answers (splayScheduler η).call xs {} = .ok (os, s) ∧
      answers listScheduler.call xs [] = .ok (os, q) ∧
      answers pendingEvents.call xs [] = .ok (os, p) ∧
      s.root.inorder = q ∧ InOrder Event.key q ∧ q.Perm p ∧ s.qsize = p.length := by
  have hx' := hx.mono fun _ _ => LegalCall.admitted
  obtain ⟨os, s, q, p, hs, hq, hp, hv, he, hqq, hperm⟩ :=
    SplayScheduler.serves.answers SplayScheduler.valid_new rfl hx'
  have hi : s.root.inorder = q :=
    hv.inOrder.eq_of_perm hqq.inOrder (Multiset.coe_eq_coe.mp he)
  refine ⟨os, s, q, p, hs, hq, hp, hi, hqq.inOrder, hperm, ?_⟩
  rw [hv.qsize, hi, hperm.length_eq]

/-- Two events of one time, an earlier event, and a cancellation among them. -/
def tiedCalls : List (SchedulerCall ℕ) :=
  [.insert ⟨2, 1, 0⟩, .insert ⟨2, 2, 1⟩, .insert ⟨1, 3, 2⟩, .insert ⟨2, 4, 3⟩, .head,
    .cancel ⟨2, 1, 0⟩, .lookup 1, .deque, .deque, .deque, .deque]

theorem splay_refines_list_tied : ∃ os s, answers (splayScheduler ℕ).call tiedCalls {} = .ok (os, s) ∧
    os = [none, none, none, none, some ⟨1, 3, 2⟩, some ⟨2, -1, 0⟩, none, some ⟨1, 3, 2⟩,
      some ⟨2, 2, 1⟩, some ⟨2, 4, 3⟩, none] := by
  have hx : LegalCalls pendingEvents.call LegalCall tiedCalls [] := by decide
  obtain ⟨os, s, q, p, hs, -, hp, -⟩ := splay_refines_list hx
  have hp' : answers pendingEvents.call tiedCalls [] = .ok ([none, none, none, none,
      some ⟨1, 3, 2⟩, some ⟨2, -1, 0⟩, none, some ⟨1, 3, 2⟩, some ⟨2, 2, 1⟩, some ⟨2, 4, 3⟩, none],
      []) := by rfl
  rw [hp'] at hp
  cases hp
  exact ⟨_, s, hs, rfl⟩

end Ns2XPass
