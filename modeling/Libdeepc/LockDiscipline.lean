import Mathlib.Data.List.Nodup
import Mathlib.Order.Basic

/-!
# Threads around one lock

A thread is inside or outside the section that a lock guards. Taking the free
lock leads inside, giving it back leads outside. A reset frees the lock without
asking who holds it: it is harmless exactly when nobody is inside. Tickets that
threads take inside, one after another, are all different.
-/

namespace LockDiscipline

universe u v
variable {T : Type u} {t : T}

section Lock

structure View (T : Type u) where
  locked : Bool
  inside : T → Bool

inductive Kind
  | stay | acquire | release | reset
  deriving DecidableEq

/-- What a step does to the lock and to the thread that takes it. -/
inductive Turn (locked inside locked' inside' : Bool) : Kind → Prop
  | stay (hlock : locked' = locked) (hin : inside' = inside) :
      Turn locked inside locked' inside' .stay
  | acquire (free : locked = false) (hlock : locked' = true) :
      Turn locked inside locked' inside' .acquire
  | release (holds : inside = true) (hout : inside' = false) :
      Turn locked inside locked' inside' .release
  | reset (hin : inside' = inside) : Turn locked inside locked' inside' .reset

structure Moves (t : T) (k : Kind) (v v' : View T) : Prop where
  own : Turn v.locked (v.inside t) v'.locked (v'.inside t) k
  others : ∀ u, u ≠ t → v'.inside u = v.inside u

def Exclusive (v : View T) : Prop := ∀ t u, v.inside t = true → v.inside u = true → t = u

def Vacant (v : View T) : Prop := ∀ t, v.inside t = false

instance {n : Nat} (v : View (Fin n)) : Decidable (Vacant v) :=
  inferInstanceAs (Decidable (∀ t, v.inside t = false))

structure Guarded (v : View T) : Prop where
  exclusive : Exclusive v
  held : ∀ t, v.inside t = true → v.locked = true

variable {k : Kind} {v v' : View T}

theorem guarded_of_vacant (h : Vacant v) : Guarded v where
  exclusive t u ht _ := absurd ht (by simp [h t])
  held t ht := absurd ht (by simp [h t])

/-- Behind the free lock there is nobody. -/
theorem Guarded.vacant_of_free (hg : Guarded v) (hfree : v.locked = false) : Vacant v := by
  intro u
  by_contra hin
  have := hg.held u (by simpa using hin)
  rw [hfree] at this
  cases this

theorem Guarded.others_out (hg : Guarded v) (hin : v.inside t = true) {u : T} (hu : u ≠ t) :
    v.inside u = false := by
  by_contra hin'
  exact hu (hg.exclusive u t (by simpa using hin') hin)

theorem Moves.inside_eq (h : Moves t k v v') (hin : v'.inside t = v.inside t) :
    v'.inside = v.inside := by
  funext u
  by_cases hu : u = t
  · rw [hu, hin]
  · exact h.others u hu

theorem Guarded.step (hg : Guarded v) (h : Moves t k v v') (hquiet : k = .reset → Vacant v) :
    Guarded v' := by
  cases h.own with
  | stay hlock hin =>
    have hsame := h.inside_eq hin
    exact ⟨fun u w => hsame ▸ hg.exclusive u w, fun u => hsame ▸ hlock ▸ hg.held u⟩
  | acquire free hlock =>
    have honly : ∀ u, v'.inside u = true → u = t := by
      intro u hu
      by_contra hne
      rw [h.others u hne, hg.vacant_of_free free u] at hu
      cases hu
    exact ⟨fun u w hu hw => (honly u hu).trans (honly w hw).symm, fun _ _ => hlock⟩
  | release holds hout =>
    refine guarded_of_vacant fun u => ?_
    by_cases hu : u = t
    · rw [hu, hout]
    · rw [h.others u hu, hg.others_out holds hu]
  | reset hin =>
    refine guarded_of_vacant fun u => ?_
    rw [h.inside_eq hin, hquiet rfl u]

end Lock

section Tickets

variable {α : Type v} [PartialOrder α]

/-- A counter, the tickets whose takers have not moved it yet, and all tickets taken. -/
structure Counter (T : Type u) (α : Type v) where
  next : α
  pending : T → Option α
  taken : List (T × α)

/-- What a step does to the counter and to the thread that takes it. -/
inductive Draw (next : α) (pending : Option α) (next' : α) (pending' : Option α) :
    Option α → Prop
  | stay (hnext : next' = next) (hpending : pending' = pending) :
      Draw next pending next' pending' none
  | take (hnone : pending = none) (hnext : next' = next) (hpending : pending' = some next) :
      Draw next pending next' pending' (some next)
  | move (hlt : next < next') (hpending : pending' = none) : Draw next pending next' pending' none

structure Draws (t : T) (ticket : Option α) (c c' : Counter T α) : Prop where
  own : Draw c.next (c.pending t) c'.next (c'.pending t) ticket
  others : ∀ u, u ≠ t → c'.pending u = c.pending u
  taken : c'.taken = (ticket.map fun k => (t, k)).toList ++ c.taken
  alone : (ticket ≠ none ∨ c'.next ≠ c.next) → ∀ u, u ≠ t → c.pending u = none

structure Distinct (c : Counter T α) : Prop where
  below : ∀ p ∈ c.taken, p.2 < c.next ∨ ∃ t, c.pending t = some p.2
  current : ∀ t k, c.pending t = some k → k = c.next
  nodup : (c.taken.map Prod.snd).Nodup

variable {ticket : Option α} {c c' : Counter T α}

theorem Distinct.taken_le (h : Distinct c) : ∀ p ∈ c.taken, p.2 ≤ c.next := by
  intro p hp
  rcases h.below p hp with hlt | ⟨u, hu⟩
  · exact le_of_lt hlt
  · exact le_of_eq (h.current u p.2 hu)

theorem Distinct.taken_lt (h : Distinct c) (hidle : ∀ u, c.pending u = none) :
    ∀ p ∈ c.taken, p.2 < c.next := by
  intro p hp
  rcases h.below p hp with hlt | ⟨u, hu⟩
  · exact hlt
  · rw [hidle u] at hu
    cases hu

theorem Draws.pending_eq (h : Draws t ticket c c') (hp : c'.pending t = c.pending t) :
    c'.pending = c.pending := by
  funext u
  by_cases hu : u = t
  · rw [hu, hp]
  · exact h.others u hu

/-- After the taker has gone on, its ticket is the only one pending, if any is. -/
theorem Draws.pending_only (h : Draws t ticket c c')
    (halone : ∀ u, u ≠ t → c.pending u = none) {u : T} {k : α} (hk : c'.pending u = some k) :
    u = t := by
  by_contra hu
  rw [h.others u hu, halone u hu] at hk
  cases hk

theorem Distinct.step (hc : Distinct c) (h : Draws t ticket c c') : Distinct c' := by
  cases h.own with
  | stay hnext hpending =>
    have hsame := h.pending_eq hpending
    have htaken : c'.taken = c.taken := h.taken
    refine ⟨?_, ?_, htaken ▸ hc.nodup⟩
    · rw [htaken, hsame, hnext]
      exact hc.below
    · rw [hsame, hnext]
      exact hc.current
  | take hnone hnext hpending =>
    have halone := h.alone (.inl (by simp))
    have hlt := hc.taken_lt fun u =>
      (eq_or_ne u t).elim (fun hu => hu ▸ hnone) (halone u)
    have htaken : c'.taken = (t, c.next) :: c.taken := h.taken
    refine ⟨fun p hp => ?_, fun u k hk => ?_, ?_⟩
    · rcases List.mem_cons.mp (htaken ▸ hp) with rfl | hp
      · exact .inr ⟨t, hpending⟩
      · exact .inl (hnext ▸ hlt p hp)
    · rw [h.pending_only halone hk, hpending] at hk
      rw [hnext, Option.some.inj hk]
    · rw [htaken, List.map_cons, List.nodup_cons]
      refine ⟨fun hmem => ?_, hc.nodup⟩
      obtain ⟨p, hp, heq⟩ := List.mem_map.mp hmem
      exact absurd heq (hlt p hp).ne
  | move hlt hpending =>
    have halone := h.alone (.inr hlt.ne')
    have htaken : c'.taken = c.taken := h.taken
    refine ⟨fun p hp => ?_, fun u k hk => ?_, htaken ▸ hc.nodup⟩
    · exact .inl (lt_of_le_of_lt (hc.taken_le p (htaken ▸ hp)) hlt)
    · rw [h.pending_only halone hk, hpending] at hk
      cases hk

end Tickets

section Turns

variable {α : Type v} {l : List α} {x : α}

/-- Between two entries of one writer there are entries of that writer only. -/
def Contiguous (l : List α) : Prop :=
  ∀ pre mid post i, l = pre ++ i :: (mid ++ i :: post) → ∀ j ∈ mid, j = i

theorem contiguous_nil : Contiguous ([] : List α) := by
  intro pre mid post i h
  cases pre <;> cases h

/-- A writer goes on right after itself, or it begins. -/
theorem Contiguous.concat (h : Contiguous l) (hx : x ∉ l ∨ l.getLast? = some x) :
    Contiguous (l ++ [x]) := by
  intro pre mid post i heq
  rcases List.eq_nil_or_concat' post with rfl | ⟨post', y, rfl⟩
  · have hend : pre ++ i :: (mid ++ [i]) = (pre ++ i :: mid) ++ [i] := by simp
    obtain ⟨rfl, rfl⟩ := List.append_singleton_inj.mp (heq.trans hend)
    have hlast := hx.resolve_left (by simp)
    rcases List.eq_nil_or_concat' mid with rfl | ⟨mid', z, rfl⟩
    · nofun
    · have hsplit : pre ++ x :: (mid' ++ [z]) = (pre ++ x :: mid') ++ [z] := by simp
      rw [hsplit, List.getLast?_concat] at hlast
      obtain rfl := Option.some.inj hlast
      intro j hj
      rcases List.mem_append.mp hj with hj | hj
      · exact h pre mid' [] z rfl j hj
      · exact List.mem_singleton.mp hj
  · have hend : pre ++ i :: (mid ++ i :: (post' ++ [y])) =
        (pre ++ i :: (mid ++ i :: post')) ++ [y] := by simp
    exact h pre mid post' i (List.append_singleton_inj.mp (heq.trans hend)).1

end Turns

end LockDiscipline
