import Libdeepc.QueueLinks
import Mathlib.Data.List.Nodup

/-!
# Queues as sequences

A queue is the sequence of its nodes. Whatever is inserted and removed, and in
whichever of several queues, the links of every queue spell its sequence.
-/

namespace QueueLaw

open Runs QueueLinks

section Paths

/-- `y` comes after `x`, where `NULL` has no fields. -/
structure Link (h : Nodes) (x y : Nat) : Prop where
  next : x ≠ 0 → nextOf h x = some y
  prev : y ≠ 0 → prevOf h y = some x

/-- From `x` through the nodes of the list to `y`. -/
def Path (h : Nodes) (x : Nat) : List Nat → Nat → Prop
  | [], y => Link h x y
  | z :: zs, y => Link h x z ∧ Path h z zs y

variable {h h' : Nodes} {x y p e q : Nat} {l r : List Nat}

theorem path_append {z : Nat} : Path h x (l ++ z :: r) y ↔ Path h x l z ∧ Path h z r y := by
  induction l generalizing x with
  | nil => exact Iff.rfl
  | cons a l ih => exact (and_congr_right fun _ => ih).trans and_assoc.symm

/-- A path only sees the next pointers of its nodes but the last and the other way round. -/
theorem Path.congr (hpath : Path h x l y)
    (hnext : ∀ a ∈ x :: l, a ≠ 0 → nextOf h' a = nextOf h a)
    (hprev : ∀ a ∈ l ++ [y], a ≠ 0 → prevOf h' a = prevOf h a) : Path h' x l y := by
  have hlink : ∀ a b, Link h a b → (a ≠ 0 → nextOf h' a = nextOf h a) →
      (b ≠ 0 → prevOf h' b = prevOf h b) → Link h' a b := fun a b hab ha hb =>
    ⟨fun hne => (ha hne).trans (hab.next hne), fun hne => (hb hne).trans (hab.prev hne)⟩
  induction l generalizing x with
  | nil =>
    exact hlink x y hpath (hnext x List.mem_cons_self) (hprev y List.mem_cons_self)
  | cons z l ih =>
    refine ⟨hlink x z hpath.1 (hnext x List.mem_cons_self) (hprev z List.mem_cons_self), ?_⟩
    exact ih hpath.2 (fun a ha => hnext a (List.mem_cons_of_mem x ha))
      fun a ha => hprev a (List.mem_cons_of_mem z ha)

/-- Every node on the way has a node before and one after it. -/
theorem Path.links (hpath : Path h x l y) :
    (∀ a ∈ x :: l, ∃ b ∈ l ++ [y], Link h a b) ∧ ∀ b ∈ l ++ [y], ∃ a ∈ x :: l, Link h a b := by
  induction l generalizing x with
  | nil =>
    constructor
    · intro a ha
      rw [List.mem_singleton] at ha
      exact ⟨y, List.mem_singleton_self y, ha ▸ hpath⟩
    · intro b hb
      rw [List.nil_append, List.mem_singleton] at hb
      exact ⟨x, List.mem_singleton_self x, hb ▸ hpath⟩
  | cons z l ih =>
    obtain ⟨hfore, hback⟩ := ih hpath.2
    constructor
    · intro a ha
      rcases List.mem_cons.mp ha with rfl | ha
      · exact ⟨z, List.mem_cons_self, hpath.1⟩
      · obtain ⟨b, hb, hab⟩ := hfore a ha
        exact ⟨b, List.mem_cons_of_mem z hb, hab⟩
    · intro b hb
      rcases List.mem_cons.mp hb with rfl | hb
      · exact ⟨x, List.mem_cons_self, hpath.1⟩
      · obtain ⟨a, ha, hab⟩ := hback b hb
        exact ⟨a, List.mem_cons_of_mem x ha, hab⟩

/-- The way from `p` to `y` begins with a link. -/
theorem Path.head (hpath : Path h p r y) : Link h p (r.headD y) := by
  cases r with
  | nil => exact hpath
  | cons z r => exact hpath.1

theorem path_insert (hpath : Path h p r y) (hins : Inserted h h' e p (r.headD y)) (he : e ∉ r)
    (hey : e ≠ y) (hp : p ∉ r) (hnodup : (r ++ [y]).Nodup) : Path h' p (e :: r) y := by
  refine ⟨⟨fun _ => hins.nextPred, fun _ => hins.prevNew⟩, ?_⟩
  cases r with
  | nil => exact ⟨fun _ => hins.nextNew, hins.prevSucc⟩
  | cons z r =>
    refine ⟨⟨fun _ => hins.nextNew, hins.prevSucc⟩, hpath.2.congr ?_ ?_⟩
    · intro a ha _
      exact hins.nextOther a (fun hae => he (hae ▸ ha)) fun hap => hp (hap ▸ ha)
    · intro a ha _
      refine hins.prevOther a ?_ ?_
      · rintro rfl
        rcases List.mem_append.mp ha with har | hay
        · exact he (List.mem_cons_of_mem z har)
        · exact hey (List.mem_singleton.mp hay)
      · rintro rfl
        exact (List.nodup_cons.mp hnodup).1 ha

theorem path_remove (hpath : Path h e r y) (hrem : Removed h h' x (r.headD y)) (hx : x ∉ r)
    (hnodup : (r ++ [y]).Nodup) : Path h' x r y := by
  cases r with
  | nil => exact ⟨hrem.nextPred, hrem.prevSucc⟩
  | cons z r =>
    refine ⟨⟨hrem.nextPred, hrem.prevSucc⟩, hpath.2.congr ?_ ?_⟩
    · intro a ha _
      exact hrem.nextOther a fun hax => hx (hax ▸ ha)
    · intro a ha _
      refine hrem.prevOther a ?_
      rintro rfl
      exact (List.nodup_cons.mp hnodup).1 ha

end Paths

section Cycles

/-- A path from its origin back to it, through nodes that are all different. -/
structure Cycle (h : Nodes) (o : Nat) (xs : List Nat) : Prop where
  path : Path h o xs o
  nodup : (o :: xs).Nodup
  nonzero : 0 ∉ xs

variable {h h' : Nodes} {o p e x q : Nat} {xs l r : List Nat}

theorem nodup_append_singleton (h : (o :: xs).Nodup) : (xs ++ [o]).Nodup :=
  (List.perm_append_singleton o xs).nodup_iff.mpr h

/-- Where the cycle goes on after `p`. -/
theorem Cycle.exists_next (hc : Cycle h o xs) (hp : p ∈ o :: xs) :
    ∃ q ∈ o :: xs, Link h p q := by
  obtain ⟨q, hq, hlink⟩ := hc.path.links.1 p hp
  exact ⟨q, (List.perm_append_singleton o xs).mem_iff.mp hq, hlink⟩

theorem Cycle.exists_prev (hc : Cycle h o xs) (hp : p ∈ o :: xs) :
    ∃ x ∈ o :: xs, Link h x p :=
  hc.path.links.2 p ((List.perm_append_singleton o xs).mem_iff.mpr hp)

/-- The node that the next pointer of `p` leads to. -/
theorem Cycle.next_eq (hc : Cycle h o (l ++ p :: r)) (hlink : Link h p q) : q = r.headD o := by
  have hp : p ≠ 0 := fun hzero => hc.nonzero (hzero ▸ List.mem_append_right l List.mem_cons_self)
  have hhead := (path_append.mp hc.path).2.head.next hp
  exact Option.some.inj ((hlink.next hp).symm.trans hhead)

theorem Cycle.insert_origin (hc : Cycle h o xs) (hins : Inserted h h' e o (xs.headD o))
    (he : e ∉ o :: xs) (hzero : e ≠ 0) : Cycle h' o (e :: xs) where
  path := path_insert hc.path hins (fun hmem => he (List.mem_cons_of_mem o hmem))
    (fun heq => he (heq ▸ List.mem_cons_self)) (List.nodup_cons.mp hc.nodup).1
    (nodup_append_singleton hc.nodup)
  nodup := ((List.Perm.swap o e xs).nodup_iff).mp (List.nodup_cons.mpr ⟨he, hc.nodup⟩)
  nonzero hmem := (List.mem_cons.mp hmem).elim (fun h => hzero h.symm) hc.nonzero

theorem Cycle.insert_middle (hc : Cycle h o (l ++ p :: r))
    (hins : Inserted h h' e p (r.headD o)) (he : e ∉ o :: (l ++ p :: r)) (hzero : e ≠ 0) :
    Cycle h' o (l ++ p :: e :: r) := by
  obtain ⟨hbefore, hbehind⟩ := path_append.mp hc.path
  have hnodup := nodup_append_singleton hc.nodup
  rw [List.append_assoc, List.cons_append] at hnodup
  obtain ⟨_, htail, hapart⟩ := List.nodup_append.mp hnodup
  have hpr : p ∉ r ++ [o] := (List.nodup_cons.mp htail).1
  have hmem : ∀ a, a ∈ l ++ p :: e :: r ↔ a ∈ e :: (l ++ p :: r) := by
    intro a
    simp only [List.mem_append, List.mem_cons]
    tauto
  refine ⟨path_append.mpr ⟨hbefore.congr ?_ ?_, ?_⟩, ?_, ?_⟩
  · intro a ha _
    refine hins.nextOther a ?_ ?_
    · rintro rfl
      refine he (List.mem_cons.mpr ((List.mem_cons.mp ha).imp_right fun hal => ?_))
      exact List.mem_append_left _ hal
    · rintro rfl
      rcases List.mem_cons.mp ha with rfl | hal
      · exact (List.nodup_cons.mp hc.nodup).1 (List.mem_append_right l List.mem_cons_self)
      · exact hapart a hal a List.mem_cons_self rfl
  · intro a ha _
    refine hins.prevOther a ?_ ?_
    · rintro rfl
      refine he (List.mem_cons_of_mem o ?_)
      rcases List.mem_append.mp ha with hal | hap
      · exact List.mem_append_left _ hal
      · exact List.mem_append_right l (List.mem_singleton.mp hap ▸ List.mem_cons_self)
    · rintro rfl
      have hq : r.headD o ∈ r ++ [o] := by
        cases r with
        | nil => exact List.mem_singleton_self o
        | cons z r => exact List.mem_cons_self
      rcases List.mem_append.mp ha with hal | hap
      · exact hapart _ hal _ (List.mem_cons_of_mem p hq) rfl
      · exact hpr (List.mem_singleton.mp hap ▸ hq)
  · refine path_insert hbehind hins ?_ ?_ (fun hmem => hpr (List.mem_append_left _ hmem))
      (List.nodup_cons.mp htail).2
    · exact fun hmem => he (List.mem_cons_of_mem o (List.mem_append_right l
        (List.mem_cons_of_mem p hmem)))
    · exact fun heq => he (heq ▸ List.mem_cons_self)
  · have hperm : (o :: (l ++ p :: e :: r)).Perm (e :: o :: (l ++ p :: r)) := by
      refine (List.Perm.cons o ?_).trans (List.Perm.swap e o _)
      have hmiddle : ((l ++ [p]) ++ e :: r).Perm (e :: ((l ++ [p]) ++ r)) := List.perm_middle
      simpa using hmiddle
    exact hperm.nodup_iff.mpr (List.nodup_cons.mpr ⟨he, hc.nodup⟩)
  · intro hmem0
    rcases List.mem_cons.mp ((hmem 0).mp hmem0) with h0 | h0
    · exact hzero h0.symm
    · exact hc.nonzero h0

theorem Cycle.remove (hc : Cycle h o (l ++ e :: r))
    (hrem : Removed h h' (l.getLastD o) (r.headD o)) : Cycle h' o (l ++ r) := by
  have hsub : (l ++ r).Sublist (l ++ e :: r) := (List.sublist_cons_self e r).append_left l
  have hnodup := nodup_append_singleton hc.nodup
  rw [List.append_assoc, List.cons_append] at hnodup
  obtain ⟨_, htail, hapart⟩ := List.nodup_append.mp hnodup
  refine ⟨?_, hc.nodup.sublist (hsub.cons_cons o), fun hzero => hc.nonzero (hsub.subset hzero)⟩
  have hro := (List.nodup_cons.mp htail).2
  obtain ⟨hbefore, hbehind⟩ := path_append.mp hc.path
  rcases List.eq_nil_or_concat' l with rfl | ⟨l₀, x, rfl⟩
  · refine path_remove hbehind hrem (fun hmem => ?_) hro
    exact (List.nodup_cons.mp hc.nodup).1 (List.mem_cons_of_mem e hmem)
  · rw [List.getLastD_concat] at hrem
    have hmid : ∀ a ∈ r ++ [o], a ∉ l₀ ++ [x] := fun a ha hal =>
      hapart a hal a (List.mem_cons_of_mem e ha) rfl
    have hq : r.headD o ∈ r ++ [o] := by
      cases r with
      | nil => exact List.mem_singleton_self o
      | cons z r => exact List.mem_cons_self
    rw [List.append_assoc, List.singleton_append]
    refine path_append.mpr ⟨(path_append.mp hbefore).1.congr ?_ ?_, ?_⟩
    · intro a ha _
      refine hrem.nextOther a ?_
      rintro rfl
      have hnodup' := hc.nodup
      rw [List.append_assoc, List.singleton_append, ← List.cons_append] at hnodup'
      exact (List.nodup_append.mp hnodup').2.2 a ha a List.mem_cons_self rfl
    · intro a ha _
      exact hrem.prevOther a fun heq => hmid _ hq (heq ▸ ha)
    · refine path_remove hbehind hrem (fun hmem => ?_) hro
      exact hmid x (List.mem_append_left _ hmem) (List.mem_append_right l₀ List.mem_cons_self)

/-- The two pointers of a node on a cycle. -/
theorem Cycle.node_eq (hc : Cycle h o (l ++ e :: r)) :
    h e = some ⟨r.headD o, l.getLastD o⟩ := by
  have he : e ≠ 0 := fun hzero => hc.nonzero (hzero ▸ List.mem_append_right l List.mem_cons_self)
  obtain ⟨hbefore, hbehind⟩ := path_append.mp hc.path
  refine node_ext (hbehind.head.next he) ?_
  rcases List.eq_nil_or_concat' l with rfl | ⟨l₀, x, rfl⟩
  · exact hbefore.prev he
  · rw [List.getLastD_concat]
    exact (path_append.mp hbefore).2.prev he

end Cycles

section Queues

inductive Shape
  | linear | circular

/-- The links of the nodes spell the sequence. -/
def Spelled (h : Nodes) : Shape → List Nat → Prop
  | .linear, xs => Cycle h 0 xs
  | .circular, [] => True
  | .circular, o :: xs => o ≠ 0 ∧ Cycle h o xs

def insertAfter (p e : Nat) : List Nat → List Nat
  | [] => []
  | x :: xs => if x = p then x :: e :: xs else x :: insertAfter p e xs

variable {h h' : Nodes} {s : Shape} {p e q a : Nat} {xs l r : List Nat}

theorem insertAfter_append (hp : p ∉ l) :
    insertAfter p e (l ++ p :: r) = l ++ p :: e :: r := by
  induction l with
  | nil => simp [insertAfter]
  | cons x l ih =>
    have hx : x ≠ p := fun heq => hp (heq ▸ List.mem_cons_self)
    rw [List.cons_append, insertAfter, if_neg hx, ih fun hmem => hp (List.mem_cons_of_mem x hmem)]
    rfl

theorem insertAfter_of_notMem (hp : p ∉ xs) : insertAfter p e xs = xs := by
  induction xs with
  | nil => rfl
  | cons x xs ih =>
    have hx : x ≠ p := fun heq => hp (heq ▸ List.mem_cons_self)
    rw [insertAfter, if_neg hx, ih fun hmem => hp (List.mem_cons_of_mem x hmem)]

theorem mem_insertAfter : a ∈ insertAfter p e xs ↔ a ∈ xs ∨ (a = e ∧ p ∈ xs) := by
  induction xs with
  | nil => simp [insertAfter]
  | cons x xs ih =>
    rw [insertAfter]
    split
    · rename_i hx
      simp only [List.mem_cons, hx, true_or, and_true]
      tauto
    · rename_i hx
      simp only [List.mem_cons, ih, Ne.symm hx, false_or]
      tauto

/-- Queues are told apart from `NULL` by their first node only. -/
theorem Spelled.cases (hs : Spelled h s xs) (hmem : a ∈ xs) :
    (s = .linear ∧ Cycle h 0 xs) ∨
      ∃ o ys, s = .circular ∧ xs = o :: ys ∧ o ≠ 0 ∧ Cycle h o ys := by
  cases s with
  | linear => exact .inl ⟨rfl, hs⟩
  | circular =>
    cases xs with
    | nil => exact absurd hmem List.not_mem_nil
    | cons o ys => exact .inr ⟨o, ys, rfl, rfl, hs⟩

theorem Spelled.zero_notMem (hs : Spelled h s xs) : 0 ∉ xs := by
  intro hzero
  rcases hs.cases hzero with ⟨_, hc⟩ | ⟨o, ys, _, rfl, ho, hc⟩
  · exact hc.nonzero hzero
  · exact (List.mem_cons.mp hzero).elim (fun heq => ho heq.symm) hc.nonzero

theorem Spelled.nodup (hs : Spelled h s xs) : xs.Nodup := by
  cases s with
  | linear => exact (List.nodup_cons.mp (Cycle.nodup hs)).2
  | circular =>
    cases xs with
    | nil => exact List.nodup_nil
    | cons o ys => exact hs.2.nodup

theorem Spelled.congr (hs : Spelled h s xs) (hsame : ∀ a ∈ xs, h' a = h a) : Spelled h' s xs := by
  have hcycle : ∀ o ys, Cycle h o ys → (∀ a ∈ o :: ys, a ≠ 0 → h' a = h a) → Cycle h' o ys := by
    intro o ys hc hold
    refine ⟨hc.path.congr (fun a ha hne => nextOf_congr (hold a ha hne)) fun a ha hne =>
      prevOf_congr (hold a ?_ hne), hc.nodup, hc.nonzero⟩
    exact (List.perm_append_singleton o ys).mem_iff.mp ha
  cases s with
  | linear =>
    refine hcycle 0 xs hs fun a ha hne => hsame a ?_
    exact (List.mem_cons.mp ha).resolve_left hne
  | circular =>
    cases xs with
    | nil => trivial
    | cons o ys => exact ⟨hs.1, hcycle o ys hs.2 fun a ha _ => hsame a ha⟩

/-- A member is followed by a member or, in a linear queue, by `NULL`. -/
theorem Spelled.exists_next (hs : Spelled h s xs) (hp : p ∈ xs) :
    ∃ q, Link h p q ∧ (q ≠ 0 → q ∈ xs) ∧
      ∀ e h', e ∉ xs → e ≠ 0 → Inserted h h' e p q → Spelled h' s (insertAfter p e xs) := by
  have hmiddle : ∀ o ys, Cycle h o ys → p ∈ ys → ∃ q ∈ o :: ys, Link h p q ∧
      ∀ e h', e ∉ o :: ys → e ≠ 0 → Inserted h h' e p q → Cycle h' o (insertAfter p e ys) := by
    intro o ys hc hmem
    obtain ⟨l, r, rfl⟩ := List.append_of_mem hmem
    obtain ⟨q, hq, hlink⟩ := hc.exists_next (List.mem_cons_of_mem o hmem)
    obtain rfl := hc.next_eq hlink
    refine ⟨_, hq, hlink, fun e h' he hzero hins => ?_⟩
    have hpl : p ∉ l := by
      have hnodup := (List.nodup_cons.mp hc.nodup).2
      exact fun hpl => (List.nodup_append.mp hnodup).2.2 p hpl p List.mem_cons_self rfl
    rw [insertAfter_append hpl]
    exact hc.insert_middle hins he hzero
  rcases hs.cases hp with ⟨rfl, hc⟩ | ⟨o, ys, rfl, rfl, ho, hc⟩
  · obtain ⟨q, hq, hlink, hins⟩ := hmiddle 0 xs hc hp
    refine ⟨q, hlink, fun hne => (List.mem_cons.mp hq).resolve_left hne, fun e h' he hzero => ?_⟩
    exact hins e h' (fun hmem => (List.mem_cons.mp hmem).elim hzero he) hzero
  · rcases eq_or_ne p o with rfl | hne
    · refine ⟨ys.headD p, hc.path.head, fun _ => ?_, fun e h' he hzero hins => ?_⟩
      · cases ys with
        | nil => exact List.mem_cons_self
        | cons z ys => exact List.mem_cons_of_mem p List.mem_cons_self
      · rw [insertAfter, if_pos rfl]
        exact ⟨ho, hc.insert_origin hins he hzero⟩
    · obtain ⟨q, hq, hlink, hins⟩ := hmiddle o ys hc ((List.mem_cons.mp hp).resolve_left hne)
      refine ⟨q, hlink, fun _ => hq, fun e h' he hzero hins' => ?_⟩
      rw [insertAfter, if_neg hne.symm]
      exact ⟨ho, hins e h' he hzero hins'⟩

/-- A node that is not the origin is taken out of its cycle. -/
theorem Cycle.exists_remove {o : Nat} (hc : Cycle h o xs) (he : e ∈ xs) :
    ∃ h', remque h e = some h' ∧ Cycle h' o (xs.erase e) ∧
      ∀ a, a ∉ xs → (o ≠ 0 → a ≠ o) → h' a = h a := by
  obtain ⟨l, r, rfl⟩ := List.append_of_mem he
  have hnext : r.headD o = o ∨ r.headD o ∈ r := by
    cases r with
    | nil => exact .inl rfl
    | cons z r => exact .inr List.mem_cons_self
  have hprev : l.getLastD o = o ∨ l.getLastD o ∈ l := by
    rcases List.eq_nil_or_concat' l with rfl | ⟨l₀, x, rfl⟩
    · exact .inl rfl
    · rw [List.getLastD_concat]
      exact .inr (List.mem_append_right l₀ List.mem_cons_self)
  obtain ⟨hnodup, hel⟩ : (e :: r).Nodup ∧ e ∉ l := by
    obtain ⟨_, hright, hapart⟩ := List.nodup_append.mp (List.nodup_cons.mp hc.nodup).2
    exact ⟨hright, fun hmem => hapart e hmem e List.mem_cons_self rfl⟩
  have hoe : e ≠ o := fun heq => (List.nodup_cons.mp hc.nodup).1 (heq ▸ he)
  have heq : e ≠ r.headD o := by
    intro heq
    rcases hnext with h | h
    · exact hoe (heq.trans h)
    · exact (List.nodup_cons.mp hnodup).1 (heq ▸ h)
  have hsome : ∀ a, (a = o ∨ a ∈ r ∨ a ∈ l) → a ≠ 0 → (h a).isSome = true := by
    intro a ha hne
    have hmem : a ∈ o :: (l ++ e :: r) := by
      simp only [List.mem_cons, List.mem_append]
      tauto
    obtain ⟨q, _, hlink⟩ := hc.exists_next hmem
    exact isSome_of_nextOf (hlink.next hne)
  obtain ⟨h', hcode, hrem⟩ := remque_spec hc.node_eq heq
    (hsome _ (hnext.imp_right Or.inl)) (hsome _ (hprev.imp_right Or.inr))
  refine ⟨h', hcode, ?_, fun a ha hao => hrem.other a ?_ ?_⟩
  · rw [List.erase_append_right _ hel, List.erase_cons_head]
    exact hc.remove hrem
  · rintro hne rfl
    rcases hprev with h | h
    · exact hao (h ▸ hne) h
    · exact ha (List.mem_append_left _ h)
  · rintro hne rfl
    rcases hnext with h | h
    · exact hao (h ▸ hne) h
    · exact ha (List.mem_append_right l (List.mem_cons_of_mem e h))

/-- The last node of a circular queue is its own neighbour. -/
theorem remque_self (hself : h e = some ⟨e, e⟩) (he : e ≠ 0) :
    ∃ h', remque h e = some h' ∧ ∀ a, a ≠ e → h' a = h a := by
  have hwrite : ∀ v, Function.update h e (some ⟨v, e⟩) e = some ⟨v, e⟩ :=
    fun v => Function.update_self ..
  refine ⟨Function.update (Function.update h e (some ⟨e, e⟩)) e (some ⟨e, e⟩), ?_, fun a ha => ?_⟩
  · simp only [remque, setPrev, setNext, hself, Option.bind_some, if_pos he, Option.map_some,
      hwrite]
  · rw [Function.update_of_ne ha, Function.update_of_ne ha]

theorem Spelled.exists_remove (hs : Spelled h s xs) (he : e ∈ xs) :
    ∃ h', remque h e = some h' ∧ Spelled h' s (xs.erase e) ∧ ∀ a, a ∉ xs → h' a = h a := by
  rcases hs.cases he with ⟨rfl, hc⟩ | ⟨o, ys, rfl, rfl, ho, hc⟩
  · obtain ⟨h', hcode, hcycle, hsame⟩ := hc.exists_remove he
    exact ⟨h', hcode, hcycle, fun a ha => hsame a ha fun hne => absurd rfl hne⟩
  rcases eq_or_ne e o with rfl | hne
  · rw [List.erase_cons_head]
    cases ys with
    | nil =>
      obtain ⟨h', hcode, hsame⟩ := remque_self (node_ext (hc.path.next ho) (hc.path.prev ho)) ho
      exact ⟨h', hcode, trivial, fun a ha => hsame a fun heq => ha (heq ▸ List.mem_cons_self)⟩
    | cons z zs =>
      -- seen from the next node, the first one is the last
      have hz : z ≠ 0 := fun hzero => hc.nonzero (hzero ▸ List.mem_cons_self)
      have hturn : Cycle h z (zs ++ [e]) := by
        refine ⟨path_append.mpr ⟨hc.path.2, hc.path.1⟩, ?_, fun hzero => ?_⟩
        · exact nodup_append_singleton hc.nodup
        · rcases List.mem_append.mp hzero with h | h
          · exact hc.nonzero (List.mem_cons_of_mem z h)
          · exact ho (List.mem_singleton.mp h).symm
      have hez : e ∉ zs := fun h =>
        (List.nodup_cons.mp hc.nodup).1 (List.mem_cons_of_mem z h)
      obtain ⟨h', hcode, hcycle, hsame⟩ :=
        hturn.exists_remove (List.mem_append_right zs List.mem_cons_self)
      rw [List.erase_append_right _ hez, List.erase_cons_head, List.append_nil] at hcycle
      refine ⟨h', hcode, ⟨hz, hcycle⟩, fun a ha => hsame a ?_ fun _ heq => ?_⟩
      · intro hmem
        rcases List.mem_append.mp hmem with h | h
        · exact ha (List.mem_cons_of_mem e (List.mem_cons_of_mem z h))
        · exact ha (List.mem_singleton.mp h ▸ List.mem_cons_self)
      · exact ha (heq ▸ List.mem_cons_of_mem e List.mem_cons_self)
  · obtain ⟨h', hcode, hcycle, hsame⟩ :=
      hc.exists_remove ((List.mem_cons.mp he).resolve_left hne)
    rw [List.erase_cons_tail (by simpa using hne.symm)]
    refine ⟨h', hcode, ⟨ho, hcycle⟩, fun a ha => hsame a ?_ fun _ heq => ?_⟩
    · exact fun hmem => ha (List.mem_cons_of_mem o hmem)
    · exact ha (heq ▸ List.mem_cons_self)

/-- Between members, one pointer forward is one pointer back. -/
theorem Spelled.next_iff_prev (hs : Spelled h s xs) {x y : Nat} (hx : x ∈ xs) (hy : y ∈ xs) :
    nextOf h x = some y ↔ prevOf h y = some x := by
  have hne : ∀ a ∈ xs, a ≠ 0 := fun a ha hzero => hs.zero_notMem (hzero ▸ ha)
  have hends : (∃ q, Link h x q) ∧ ∃ w, Link h w y := by
    rcases hs.cases hx with ⟨_, hc⟩ | ⟨o, ys, _, rfl, _, hc⟩
    · obtain ⟨q, _, hq⟩ := hc.exists_next (List.mem_cons_of_mem 0 hx)
      obtain ⟨w, _, hw⟩ := hc.exists_prev (List.mem_cons_of_mem 0 hy)
      exact ⟨⟨q, hq⟩, w, hw⟩
    · obtain ⟨q, _, hq⟩ := hc.exists_next hx
      obtain ⟨w, _, hw⟩ := hc.exists_prev hy
      exact ⟨⟨q, hq⟩, w, hw⟩
  obtain ⟨⟨q, hq⟩, w, hw⟩ := hends
  constructor
  · intro hnext
    obtain rfl : q = y := Option.some.inj ((hq.next (hne x hx)).symm.trans hnext)
    exact hq.prev (hne q hy)
  · intro hprev
    obtain rfl : w = x := Option.some.inj ((hw.prev (hne y hy)).symm.trans hprev)
    exact hw.next (hne w hx)

/-- Taking a node out again restores the links of all others. -/
theorem remque_insque (hlink : Link h p q) (hp : p ≠ 0) (heq : e ≠ q)
    (hins : Inserted h h' e p q) :
    ∃ h'', remque h' e = some h'' ∧ ∀ a, a ≠ e → h'' a = h a := by
  have hsomep : (h' p).isSome = true := isSome_of_nextOf hins.nextPred
  obtain ⟨h'', hcode, hrem⟩ := remque_spec (node_ext hins.nextNew hins.prevNew) heq
    (fun hq => isSome_of_prevOf (hins.prevSucc hq)) fun _ => hsomep
  refine ⟨h'', hcode, fun a hae => ?_⟩
  have hnext : nextOf h'' a = nextOf h a := by
    by_cases hap : a = p
    · rw [hap, hrem.nextPred hp, hlink.next hp]
    · rw [hrem.nextOther a hap, hins.nextOther a hae hap]
  have hprev : prevOf h'' a = prevOf h a := by
    by_cases haq : a = q
    · by_cases hq : q = 0
      · have hother : h' a = h a ∧ h'' a = h' a := by
          have hap : a ≠ p := fun hap => hp (hap.symm.trans (haq.trans hq))
          exact ⟨hins.other a hae hap fun hne => absurd hq hne,
            hrem.other a (fun _ => hap) fun hne => absurd hq hne⟩
        exact prevOf_congr (hother.2.trans hother.1)
      · rw [haq, hrem.prevSucc hq, hlink.prev hq]
    · rw [hrem.prevOther a haq, hins.prevOther a hae haq]
  cases hnode : h a with
  | none =>
    rw [nextOf, nextOf, hnode, Option.map_none, Option.map_eq_none_iff] at hnext
    exact hnext
  | some n =>
    refine node_ext (hnext.trans ?_) (hprev.trans ?_)
    · rw [nextOf, hnode]
      rfl
    · rw [prevOf, hnode]
      rfl

end Queues

section Runs

/-- `insque(e, NULL)` begins a linear queue, a node linked to itself a circular one. -/
inductive Op
  | start (e : Nat)
  | startCircular (e : Nat)
  | insert (e p : Nat)
  | remove (e : Nat)

def perform (h : Nodes) : Op → Option Nodes
  | .start e => insque h e 0
  | .startCircular e => linkSelf h e
  | .insert e p => insque h e p
  | .remove e => remque h e

abbrev Queues := List (Shape × List Nat)

/-- The sequences after an operation. -/
def after (qs : Queues) : Op → Queues
  | .start e => (.linear, [e]) :: qs
  | .startCircular e => (.circular, [e]) :: qs
  | .insert e p => qs.map fun c => (c.1, insertAfter p e c.2)
  | .remove e => qs.map fun c => (c.1, c.2.erase e)

structure State where
  nodes : Nodes
  queues : Queues

def step (s : State) (op : Op) : Option State :=
  (perform s.nodes op).map fun h => ⟨h, after s.queues op⟩

/-- A node that can be put into a queue. -/
def Fresh (s : State) (e : Nat) : Prop :=
  e ≠ 0 ∧ (s.nodes e).isSome = true ∧ ∀ c ∈ s.queues, e ∉ c.2

def Member (s : State) (p : Nat) : Prop := ∃ c ∈ s.queues, p ∈ c.2

def Allowed (s : State) : Op → Prop
  | .start e => Fresh s e
  | .startCircular e => Fresh s e
  | .insert e p => Fresh s e ∧ Member s p
  | .remove e => Member s e

/-- The node of an operation and the nodes of the queue it works on. -/
def Touches (qs : Queues) : Op → Nat → Prop
  | .start e, a => a = e
  | .startCircular e, a => a = e
  | .insert e p, a => a = e ∨ ∃ c ∈ qs, p ∈ c.2 ∧ a ∈ c.2
  | .remove e, a => ∃ c ∈ qs, e ∈ c.2 ∧ a ∈ c.2

/-- The operation comes back with all queues spelled, in both directions, and has changed no node
of another queue. Taken back at once, an insertion has changed no other node at all. -/
structure Lawful (s : State) (op : Op) (h' : Nodes) : Prop where
  spelled : ∀ c ∈ after s.queues op, Spelled h' c.1 c.2
  both : ∀ c ∈ after s.queues op, ∀ x ∈ c.2, ∀ y ∈ c.2,
    nextOf h' x = some y ↔ prevOf h' y = some x
  other : ∀ a, ¬Touches s.queues op a → h' a = s.nodes a
  undo : ∀ e p, op = .insert e p →
    ∃ h'', remque h' e = some h'' ∧ ∀ a, a ≠ e → h'' a = s.nodes a

structure Inv (s : State) : Prop where
  spelled : ∀ c ∈ s.queues, Spelled s.nodes c.1 c.2
  apart : s.queues.Pairwise fun c d => ∀ a ∈ c.2, a ∉ d.2

variable {s : State} {e p : Nat}

theorem fresh_spelled {s : State} (hi : Inv s) (he : Fresh s e) {h' : Nodes}
    (hold : ∀ a, a ≠ e → h' a = s.nodes a) : ∀ c ∈ s.queues, Spelled h' c.1 c.2 := fun c hc =>
  (hi.spelled c hc).congr fun a ha => hold a fun heq => he.2.2 c hc (heq ▸ ha)

theorem apart_unique (hi : Inv s) {c d : Shape × List Nat} (hc : c ∈ s.queues) (hd : d ∈ s.queues)
    (hpc : p ∈ c.2) (hpd : p ∈ d.2) : c = d := by
  have hall : ∀ x ∈ s.queues, ∀ y ∈ s.queues, x = y ∨ ∀ a ∈ x.2, a ∉ y.2 := fun x hx y hy =>
    List.Pairwise.forall_of_forall_of_flip (R := fun x y => x = y ∨ ∀ a ∈ x.2, a ∉ y.2)
      (fun _ _ => .inl rfl) (hi.apart.imp .inr)
      (hi.apart.imp fun h => .inr fun a hay hax => h a hax hay) hx hy
  exact (hall c hc d hd).resolve_right fun h => h p hpc hpd

/-- An operation on the queue of `p` only, as the other queues see it. -/
theorem mapped_spelled (hi : Inv s) {h' : Nodes} {f : List Nat → List Nat}
    (hf : ∀ c ∈ s.queues, p ∈ c.2 → Spelled h' c.1 (f c.2))
    (hsame : ∀ c ∈ s.queues, p ∉ c.2 → f c.2 = c.2 ∧ ∀ a ∈ c.2, h' a = s.nodes a) :
    ∀ c ∈ s.queues.map (fun c => (c.1, f c.2)), Spelled h' c.1 c.2 := by
  intro c hc
  obtain ⟨d, hd, rfl⟩ := List.mem_map.mp hc
  by_cases hp : p ∈ d.2
  · exact hf d hd hp
  · obtain ⟨hfd, hold⟩ := hsame d hd hp
    change Spelled h' d.1 (f d.2)
    rw [hfd]
    exact (hi.spelled d hd).congr hold

theorem spelled_both {h' : Nodes} {qs : Queues} (h : ∀ c ∈ qs, Spelled h' c.1 c.2) :
    ∀ c ∈ qs, ∀ x ∈ c.2, ∀ y ∈ c.2, nextOf h' x = some y ↔ prevOf h' y = some x :=
  fun c hc _ hx _ hy => (h c hc).next_iff_prev hx hy

theorem linear_single {h : Nodes} (he : h e = some ⟨0, 0⟩) (hne : e ≠ 0) :
    Spelled h .linear [e] where
  path := by
    refine ⟨⟨fun hzero => absurd rfl hzero, fun _ => ?_⟩, fun _ => ?_,
      fun hzero => absurd rfl hzero⟩
    · rw [prevOf, he]
      rfl
    · rw [nextOf, he]
      rfl
  nodup := by simpa using hne.symm
  nonzero := by simpa using hne.symm

theorem circular_single {h : Nodes} (he : h e = some ⟨e, e⟩) (hne : e ≠ 0) :
    Spelled h .circular [e] := by
  refine ⟨hne, ⟨fun _ => ?_, fun _ => ?_⟩, List.nodup_singleton e, List.not_mem_nil⟩
  · rw [nextOf, he]
    rfl
  · rw [prevOf, he]
    rfl

/-- Both fields of a node are written. -/
theorem setBoth_spec {h : Nodes} (he : (h e).isSome = true) (v : Nat) :
    ∃ h', (setNext h e v).bind (fun h => setPrev h e v) = some h' ∧ h' e = some ⟨v, v⟩ ∧
      ∀ a, a ≠ e → h' a = h a := by
  obtain ⟨h₁, hset₁, hold₁, hnext₁, _⟩ := setNext_spec he v
  obtain ⟨h₂, hset₂, hold₂, hprev₂, hsame₂⟩ := setPrev_spec (isSome_of_nextOf hnext₁) v
  refine ⟨h₂, ?_, node_ext ((hsame₂ e).trans hnext₁) hprev₂, fun a ha => ?_⟩
  · rw [hset₁, Option.bind_some, hset₂]
  · rw [hold₂ a ha, hold₁ a ha]

/-- A queue of one new node beside the others. -/
theorem lawful_start (hi : Inv s) (he : Fresh s e) {h' : Nodes} {sh : Shape} {op : Op}
    (hop : op = .start e ∨ op = .startCircular e)
    (hafter : after s.queues op = (sh, [e]) :: s.queues)
    (hsingle : Spelled h' sh [e]) (hold : ∀ a, a ≠ e → h' a = s.nodes a) :
    Lawful s op h' ∧ Inv ⟨h', after s.queues op⟩ := by
  have hspelled : ∀ c ∈ after s.queues op, Spelled h' c.1 c.2 := by
    rw [hafter]
    intro c hc
    rcases List.mem_cons.mp hc with rfl | hc
    · exact hsingle
    · exact fresh_spelled hi he hold c hc
  refine ⟨⟨hspelled, spelled_both hspelled, fun a ha => hold a ?_, ?_⟩, hspelled, ?_⟩
  · rintro rfl
    rcases hop with rfl | rfl
    · exact ha rfl
    · exact ha rfl
  · rintro a p rfl
    rcases hop with hop | hop
    · cases hop
    · cases hop
  · change (after s.queues op).Pairwise _
    rw [hafter]
    refine List.pairwise_cons.mpr ⟨fun d hd a ha => ?_, hi.apart⟩
    rw [List.mem_singleton.mp ha]
    exact he.2.2 d hd

theorem lawful_insert (hi : Inv s) (he : Fresh s e) (hp : Member s p) :
    ∃ h', insque s.nodes e p = some h' ∧ Lawful s (.insert e p) h' ∧
      Inv ⟨h', after s.queues (.insert e p)⟩ := by
  obtain ⟨c, hc, hpc⟩ := hp
  have hspell := hi.spelled c hc
  have hpz : p ≠ 0 := fun hzero => hspell.zero_notMem (hzero ▸ hpc)
  have hep : e ≠ p := fun heq => he.2.2 c hc (heq ▸ hpc)
  obtain ⟨q, hlink, hq, hins⟩ := hspell.exists_next hpc
  have heq : e ≠ q := fun heq => he.2.2 c hc (heq ▸ hq (heq ▸ he.1))
  have hqsome : q ≠ 0 → (s.nodes q).isSome = true := fun hne => isSome_of_prevOf (hlink.prev hne)
  obtain ⟨h', hcode, hinserted⟩ := insque_spec he.2.1 hpz hep (hlink.next hpz) hqsome heq
  have hother : ∀ a, a ≠ e → a ∉ c.2 → h' a = s.nodes a := fun a hae hac =>
    hinserted.other a hae (fun hap => hac (hap ▸ hpc)) fun hne haq => hac (haq ▸ hq hne)
  have hspelled : ∀ d ∈ after s.queues (.insert e p), Spelled h' d.1 d.2 := by
    refine mapped_spelled (p := p) hi (fun d hd hpd => ?_) fun d hd hpd => ?_
    · obtain rfl := apart_unique hi hd hc hpd hpc
      exact hins e h' (he.2.2 d hd) he.1 hinserted
    · refine ⟨insertAfter_of_notMem hpd, fun a ha => hother a ?_ fun hac => ?_⟩
      · exact fun hae => he.2.2 d hd (hae ▸ ha)
      · obtain rfl := apart_unique hi hd hc ha hac
        exact hpd hpc
  refine ⟨h', hcode, ⟨hspelled, spelled_both hspelled, fun a ha => hother a ?_ ?_, ?_⟩,
    hspelled, ?_⟩
  · exact fun hae => ha (.inl hae)
  · exact fun hac => ha (.inr ⟨c, hc, hpc, hac⟩)
  · intro e' p' hop
    obtain ⟨rfl, rfl⟩ := Op.insert.inj hop
    exact remque_insque hlink hpz heq hinserted
  · refine List.pairwise_map.mpr (hi.apart.imp_of_mem fun {x y} hx hy hxy a hax hay => ?_)
    rcases mem_insertAfter.mp hax with hold | ⟨hae, hpx⟩
    · rcases mem_insertAfter.mp hay with hold' | ⟨hae, _⟩
      · exact hxy a hold hold'
      · exact he.2.2 x hx (hae ▸ hold)
    · rcases mem_insertAfter.mp hay with hold' | ⟨_, hpy⟩
      · exact he.2.2 y hy (hae ▸ hold')
      · exact hxy p hpx hpy

theorem lawful_remove (hi : Inv s) (he : Member s e) :
    ∃ h', remque s.nodes e = some h' ∧ Lawful s (.remove e) h' ∧
      Inv ⟨h', after s.queues (.remove e)⟩ := by
  obtain ⟨c, hc, hec⟩ := he
  obtain ⟨h', hcode, hspell, hother⟩ := (hi.spelled c hc).exists_remove hec
  have hspelled : ∀ d ∈ after s.queues (.remove e), Spelled h' d.1 d.2 := by
    refine mapped_spelled (p := e) (f := fun xs => xs.erase e) hi (fun d hd hed => ?_)
      fun d hd hed => ?_
    · obtain rfl := apart_unique hi hd hc hed hec
      exact hspell
    · refine ⟨List.erase_of_not_mem hed, fun a ha => hother a fun hac => ?_⟩
      obtain rfl := apart_unique hi hd hc ha hac
      exact hed hec
  refine ⟨h', hcode, ⟨hspelled, spelled_both hspelled, fun a ha => hother a ?_, ?_⟩, hspelled, ?_⟩
  · exact fun hac => ha ⟨c, hc, hec, hac⟩
  · intro e' p' hop
    cases hop
  · refine List.pairwise_map.mpr (hi.apart.imp fun {x y} hxy a hax hay => ?_)
    exact hxy a (List.mem_of_mem_erase hax) (List.mem_of_mem_erase hay)

theorem lawful_of_allowed (hi : Inv s) (op : Op) (hop : Allowed s op) :
    ∃ h', perform s.nodes op = some h' ∧ Lawful s op h' ∧ Inv ⟨h', after s.queues op⟩ := by
  cases op with
  | start e =>
    obtain ⟨h', hcode, hself, hold⟩ := setBoth_spec hop.2.1 0
    refine ⟨h', ?_, lawful_start hi hop (.inl rfl) rfl (linear_single hself hop.1) hold⟩
    rw [perform, insque, if_pos rfl]
    exact hcode
  | startCircular e =>
    obtain ⟨h', hcode, hself, hold⟩ := setBoth_spec hop.2.1 e
    exact ⟨h', hcode, lawful_start hi hop (.inr rfl) rfl (circular_single hself hop.1) hold⟩
  | insert e p => exact lawful_insert hi hop.1 hop.2
  | remove e => exact lawful_remove hi hop

/-- In every run of insertions and removals on any queues over any nodes, each operation comes
back and keeps the law. -/
theorem queues_spelled (nodes : Nodes) (ops : List Op)
    (hallowed : Along step Allowed ⟨nodes, []⟩ ops) :
    Along step (fun s op => ∃ h', perform s.nodes op = some h' ∧ Lawful s op h') ⟨nodes, []⟩
      ops := by
  refine Along.of_inv (I := Inv) (fun s op hi hop => ?_) (fun s op s' hi hop hs' => ?_)
    ⟨fun _ hc => absurd hc List.not_mem_nil, List.Pairwise.nil⟩ hallowed
  · obtain ⟨h', hcode, hlaw, _⟩ := lawful_of_allowed hi op hop
    exact ⟨h', hcode, hlaw⟩
  · obtain ⟨h', hcode, _, hinv⟩ := lawful_of_allowed hi op hop
    rw [step, hcode] at hs'
    exact Option.some.inj hs' ▸ hinv

instance (s : State) (e : Nat) : Decidable (Fresh s e) := inferInstanceAs (Decidable (_ ∧ _ ∧ _))

instance (s : State) (p : Nat) : Decidable (Member s p) :=
  inferInstanceAs (Decidable (∃ c ∈ s.queues, p ∈ c.2))

instance (s : State) : ∀ op, Decidable (Allowed s op)
  | .start e | .startCircular e => inferInstanceAs (Decidable (Fresh s e))
  | .insert _ _ => inferInstanceAs (Decidable (_ ∧ _))
  | .remove e => inferInstanceAs (Decidable (Member s e))

def pool : Nodes := fun a => if 1 ≤ a ∧ a ≤ 6 then some ⟨0, 0⟩ else none

/-- A linear queue beside a circular one, and nodes that move from one to the other. -/
def twoQueues : List Op :=
  [.start 1, .insert 3 1, .insert 2 1, .startCircular 4, .insert 5 4, .remove 3, .insert 3 5,
    .remove 4, .remove 1, .remove 2, .remove 5, .remove 3]

theorem queues_spelled_two :
    Along step (fun s op => ∃ h', perform s.nodes op = some h' ∧ Lawful s op h') ⟨pool, []⟩
      twoQueues :=
  queues_spelled pool twoQueues (by decide +kernel)

end Runs

end QueueLaw
