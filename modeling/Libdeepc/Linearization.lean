import Libdeepc.Runs

/-!
# Calls that take effect at one point

Threads call the operations of one shared object. A call takes effect at one
point between its start and its return. The trace of a run lists the starts, the
points and the returns. What the kernel or another oracle decides at the point is
its choice.
-/

namespace Linearization

universe u v w x y
variable {T : Type u} {Op : Type v} {Choice : Type w} {Ans : Type x} {σ : Type y}

inductive Event (T : Type u) (Op : Type v) (Choice : Type w) (Ans : Type x)
  | call (t : T) (op : Op)
  | point (t : T) (op : Op) (choice : Choice) (ans : Ans)
  | ret (t : T) (ans : Ans)

def Event.thread : Event T Op Choice Ans → T
  | .call t _ => t
  | .point t _ _ _ => t
  | .ret t _ => t

/-- How far a thread is with its call. -/
inductive Phase (Op : Type v) (Ans : Type x)
  | idle
  | called (op : Op)
  | served (ans : Ans)

def Event.served : Event T Op Choice Ans → Option (Op × Choice × Ans)
  | .point _ op choice ans => some (op, choice, ans)
  | .call _ _ | .ret _ _ => none

/-- The calls that have taken effect, in the order of their points. -/
def points (l : List (Event T Op Choice Ans)) : List (Op × Choice × Ans) := l.filterMap Event.served

/-- One call after another, from `s` to `s'`, gives these answers. -/
def Serial (apply : σ → Op → Choice → Ans × σ) : σ → List (Op × Choice × Ans) → σ → Prop
  | s, [], s' => s' = s
  | s, (op, choice, ans) :: l, s' =>
    (apply s op choice).1 = ans ∧ Serial apply (apply s op choice).2 l s'

/-- Every return answers a call of its thread, and the point with that answer lies between. -/
def Matched (l : List (Event T Op Choice Ans)) : Prop :=
  ∀ pre t ans post, l = pre ++ .ret t ans :: post → ∃ before op mid choice after,
    pre = before ++ .call t op :: (mid ++ .point t op choice ans :: after) ∧
      ∀ e ∈ mid ++ after, e.thread ≠ t

/-- A run grown event by event, with the phase of every thread and the object. -/
inductive Linearizes [DecidableEq T] (apply : σ → Op → Choice → Ans × σ) (s₀ : σ) :
    List (Event T Op Choice Ans) → (T → Phase Op Ans) → σ → Prop
  | nil : Linearizes apply s₀ [] (fun _ => .idle) s₀
  | call {l ph s t op} (h : Linearizes apply s₀ l ph s) (ht : ph t = .idle) :
      Linearizes apply s₀ (l ++ [.call t op]) (Function.update ph t (.called op)) s
  | point {l ph s t op choice} (h : Linearizes apply s₀ l ph s) (ht : ph t = .called op) :
      Linearizes apply s₀ (l ++ [.point t op choice (apply s op choice).1])
        (Function.update ph t (.served (apply s op choice).1)) (apply s op choice).2
  | ret {l ph s t ans} (h : Linearizes apply s₀ l ph s) (ht : ph t = .served ans) :
      Linearizes apply s₀ (l ++ [.ret t ans]) (Function.update ph t .idle) s

/-- What one thread does in a step: nothing that shows, or the next of its events. A call whose
effect is the last thing that it does has two. -/
inductive Effect (apply : σ → Op → Choice → Ans × σ) (t : T) (s : σ) (p : Phase Op Ans) :
    List (Event T Op Choice Ans) → Phase Op Ans → σ → Prop
  | silent : Effect apply t s p [] p s
  | call (op : Op) (hp : p = .idle) : Effect apply t s p [.call t op] (.called op) s
  | point (op : Op) (choice : Choice) (hp : p = .called op) :
      Effect apply t s p [.point t op choice (apply s op choice).1]
        (.served (apply s op choice).1) (apply s op choice).2
  | ret (ans : Ans) (hp : p = .served ans) : Effect apply t s p [.ret t ans] .idle s
  | last (op : Op) (choice : Choice) (hp : p = .called op) :
      Effect apply t s p [.point t op choice (apply s op choice).1, .ret t (apply s op choice).1]
        .idle (apply s op choice).2

section Points

variable {apply : σ → Op → Choice → Ans × σ} {s m s' : σ}

theorem points_append (k l : List (Event T Op Choice Ans)) :
    points (k ++ l) = points k ++ points l := List.filterMap_append

@[simp] theorem points_call (t : T) (op : Op) :
    points [(.call t op : Event T Op Choice Ans)] = [] := rfl

@[simp] theorem points_ret (t : T) (ans : Ans) :
    points [(.ret t ans : Event T Op Choice Ans)] = [] := rfl

@[simp] theorem points_point (t : T) (op : Op) (choice : Choice) (ans : Ans) :
    points [(.point t op choice ans : Event T Op Choice Ans)] = [(op, choice, ans)] := rfl

theorem Serial.append {k l : List (Op × Choice × Ans)} (hk : Serial apply s k m)
    (hl : Serial apply m l s') : Serial apply s (k ++ l) s' := by
  induction k generalizing s with
  | nil =>
    obtain rfl : m = s := hk
    exact hl
  | cons c k ih => exact ⟨hk.1, ih hk.2⟩

end Points

variable [DecidableEq T] {apply : σ → Op → Choice → Ans × σ} {s₀ s : σ}
  {l : List (Event T Op Choice Ans)} {ph : T → Phase Op Ans}

theorem Linearizes.effect {t : T} {es : List (Event T Op Choice Ans)} {p : Phase Op Ans} {s' : σ}
    (h : Linearizes apply s₀ l ph s) (ha : Effect apply t s (ph t) es p s') :
    Linearizes apply s₀ (l ++ es) (Function.update ph t p) s' := by
  cases ha with
  | silent => rwa [List.append_nil, Function.update_eq_self]
  | call op hp => exact h.call hp
  | point op choice hp => exact h.point hp
  | ret ans hp => exact h.ret hp
  | last op choice hp =>
    have hpoint : Linearizes apply s₀ (l ++ [.point t op choice (apply s op choice).1])
        (Function.update ph t (.served (apply s op choice).1)) (apply s op choice).2 := h.point hp
    have hret := hpoint.ret (Function.update_self t _ ph)
    rwa [List.append_assoc, Function.update_idem] at hret

theorem Linearizes.serial (h : Linearizes apply s₀ l ph s) : Serial apply s₀ (points l) s := by
  induction h with
  | nil => rfl
  | call h ht ih => rwa [points_append, points_call, List.append_nil]
  | ret h ht ih => rwa [points_append, points_ret, List.append_nil]
  | point h ht ih =>
    rw [points_append, points_point]
    exact ih.append ⟨rfl, rfl⟩

/-- What the trace holds of the call that a thread is in. -/
def Shows (l : List (Event T Op Choice Ans)) (t : T) : Phase Op Ans → Prop
  | .idle => True
  | .called op => ∃ before mid, l = before ++ .call t op :: mid ∧ ∀ e ∈ mid, e.thread ≠ t
  | .served ans => ∃ before op mid choice after,
    l = before ++ .call t op :: (mid ++ .point t op choice ans :: after) ∧
      ∀ e ∈ mid ++ after, e.thread ≠ t

omit [DecidableEq T] in
theorem Shows.later {t : T} {p : Phase Op Ans} (h : Shows l t p) {e : Event T Op Choice Ans}
    (he : e.thread ≠ t) : Shows (l ++ [e]) t p := by
  cases p with
  | idle => trivial
  | called op =>
    obtain ⟨before, mid, rfl, hmid⟩ := h
    refine ⟨before, mid ++ [e], by simp, fun e' he' => ?_⟩
    rcases List.mem_append.mp he' with he' | he'
    · exact hmid e' he'
    · rwa [List.mem_singleton.mp he']
  | served ans =>
    obtain ⟨before, op, mid, choice, after, rfl, hrest⟩ := h
    refine ⟨before, op, mid, choice, after ++ [e], by simp, fun e' he' => ?_⟩
    rw [← List.append_assoc] at he'
    rcases List.mem_append.mp he' with he' | he'
    · exact hrest e' he'
    · rwa [List.mem_singleton.mp he']

omit [DecidableEq T] in
theorem Shows.point {t : T} {op : Op} (h : Shows l t (.called op : Phase Op Ans))
    (choice : Choice) (ans : Ans) :
    Shows (l ++ [.point t op choice ans]) t (.served ans : Phase Op Ans) := by
  obtain ⟨before, mid, rfl, hmid⟩ := h
  exact ⟨before, op, mid, choice, [], by simp, by simpa using hmid⟩

/-- The event of one thread leaves what the trace shows of the others. -/
theorem shows_update {t : T} {p : Phase Op Ans} {e : Event T Op Choice Ans} (he : e.thread = t)
    (h : ∀ u, Shows l u (ph u)) (hp : Shows (l ++ [e]) t p) (u : T) :
    Shows (l ++ [e]) u (Function.update ph t p u) := by
  by_cases hu : u = t
  · subst hu
    rwa [Function.update_self]
  · rw [Function.update_of_ne hu]
    exact (h u).later fun heq => hu (heq.symm.trans he)

theorem Linearizes.shows (h : Linearizes apply s₀ l ph s) : ∀ t, Shows l t (ph t) := by
  induction h with
  | nil => exact fun _ => trivial
  | call h ht ih => exact shows_update rfl ih ⟨_, [], rfl, by simp⟩
  | point h ht ih => exact shows_update rfl ih ((ht ▸ ih _).point _ _)
  | ret h ht ih => exact shows_update rfl ih trivial

omit [DecidableEq T] in
theorem Matched.concat {e : Event T Op Choice Ans} (h : Matched l)
    (he : ∀ t ans, e = .ret t ans → Shows l t (.served ans)) : Matched (l ++ [e]) := by
  intro pre t ans post heq
  rcases List.eq_nil_or_concat' post with rfl | ⟨post', e', rfl⟩
  · obtain ⟨rfl, rfl⟩ := List.append_singleton_inj.mp heq
    exact he t ans rfl
  · have hassoc : pre ++ .ret t ans :: (post' ++ [e']) = (pre ++ .ret t ans :: post') ++ [e'] := by
      simp
    exact h pre t ans post' (List.append_singleton_inj.mp (heq.trans hassoc)).1

theorem Linearizes.matched (h : Linearizes apply s₀ l ph s) : Matched l := by
  induction h with
  | nil =>
    intro pre t ans post heq
    cases pre <;> cases heq
  | call h ht ih => exact ih.concat nofun
  | point h ht ih => exact ih.concat nofun
  | ret h ht ih =>
    refine ih.concat fun u ans heq => ?_
    obtain ⟨rfl, rfl⟩ := Event.ret.inj heq
    exact ht ▸ h.shows _

end Linearization
