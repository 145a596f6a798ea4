import Libdeepc.LockDiscipline
import Libdeepc.MallocThreads

/-!
# One `malloc` after another

Threads that call `malloc` at the same time get the answers that they would get
one after another, in the order in which they leave `sbrk`. That rests on the
lock, and the lock on its initialization: the first call of `malloc` is that of
`__libc_start_main`, before there is a second thread.
-/

namespace MallocLinear

open BreakHeap LockDiscipline Linearization MallocThreads Runs

/-- What `sbrk` makes of a break that it only asks for. -/
def reported (brk : UInt64) : UInt64 := if brk > -4096 then -1 else brk

theorem syscall1Brk_ask (p : Process) : (syscall1Brk 0 false p).1 = reported p.brk ∧
    (syscall1Brk 0 false p).2.brk = p.brk := by
  simp only [syscall1Brk, sysBrk, syscallChkErr, reported, Bool.false_eq_true, if_false]
  split <;> exact ⟨rfl, rfl⟩

/-- The error number is only written. -/
theorem syscall1Brk_congr {p q : Process} (h : p.brk = q.brk) (addr : UInt64) (grant : Bool) :
    (syscall1Brk addr grant p).1 = (syscall1Brk addr grant q).1 ∧
      (syscall1Brk addr grant p).2.brk = (syscall1Brk addr grant q).2.brk := by
  cases grant
  all_goals
    simp only [syscall1Brk, sysBrk, syscallChkErr, h, Bool.false_eq_true, if_false, if_true]
    split <;> exact ⟨rfl, by first | rfl | exact h⟩

/-- `malloc` is `sbrk`, read as a pointer. -/
theorem malloc_eq_sbrk {size : UInt64} (hsize : size ≠ 0) (grant : Bool) (p : Process) :
    (malloc size grant p).1 = answer (sbrk (increment size) grant p).1 ∧
      (malloc size grant p).2.brk = (sbrk (increment size) grant p).2.brk := by
  simp only [malloc, if_neg hsize, increment, answer]
  split
  · rename_i hfail
    exact ⟨(if_pos hfail).symm, rfl⟩
  · rename_i hfound
    exact ⟨(if_neg hfound).symm, rfl⟩

theorem sbrk_stays {size : UInt64} (h : increment size = 0) (grant : Bool) (p : Process) :
    (sbrk (increment size) grant p).1 = reported p.brk ∧
      (sbrk (increment size) grant p).2.brk = p.brk := by
  simp only [sbrk, if_pos h]
  exact syscall1Brk_ask p

/-- The second system call sees the break that the first one has reported. -/
theorem sbrk_moves {size : UInt64} (h : increment size ≠ 0) (grant : Bool) {p q : Process}
    (hbrk : q.brk = p.brk) :
    let nextBreak := reported p.brk + (increment size).toUInt64
    (sbrk (increment size) grant p).1 =
        (if nextBreak ≠ (syscall1Brk nextBreak grant q).1 then -1 else reported p.brk) ∧
      (sbrk (increment size) grant p).2.brk = (syscall1Brk nextBreak grant q).2.brk := by
  intro nextBreak
  obtain ⟨hcur, hsame⟩ := syscall1Brk_ask p
  obtain ⟨hret, hafter⟩ := syscall1Brk_congr (hsame.trans hbrk.symm) nextBreak grant
  simp only [sbrk, if_neg h, hcur]
  rw [← hret, ← hafter]
  split <;> exact ⟨rfl, rfl⟩

/-- How far a thread is with its call of `malloc`. -/
def phase : Place → Phase UInt64 UInt64
  | .user => .idle
  | .testSize size | .readInit size | .testAndSetFlag size | .initMtx size | .storeInit size
  | .clearFlag size | .lockMtx size | .readBreak size | .moveBreak size _ => .called size
  | .unlockMtx _ ret | .storeSize _ ret => .served (answer ret)

/-- What a thread relies on between two steps. -/
def Ready (brk : UInt64) : Place → Prop
  | .user | .testSize _ => True
  | .moveBreak size curBreak => size ≠ 0 ∧ increment size ≠ 0 ∧ curBreak = reported brk
  | .readInit size | .testAndSetFlag size | .initMtx size | .storeInit size | .clearFlag size
  | .lockMtx size | .readBreak size | .unlockMtx size _ | .storeSize size _ => size ≠ 0

/-- The object the threads share, one call at a time. -/
def object (p : Process) (size : UInt64) (grant : Bool) : UInt64 × Process := malloc size grant p

theorem ready_of_outside {p : Place} (h : p.inside = false) {brk brk' : UInt64}
    (hr : Ready brk p) : Ready brk' p := by
  cases p <;> first | exact hr | cases h

section Advance

universe u
variable {T : Type u} {t : T} {grant : Bool} {g g' : Shared} {th th' : Thread}
  {es : List (MallocThreads.Event T)}

def lockKind (locked : Bool) : Place → Kind
  | .initMtx _ => .reset
  | .unlockMtx _ _ => .release
  | .lockMtx _ => if locked then .stay else .acquire
  | _ => .stay

theorem lockKind_eq_reset {locked : Bool} {p : Place} (h : lockKind locked p = .reset) :
    ∃ size, p = .initMtx size := by
  cases p with
  | initMtx size => exact ⟨size, rfl⟩
  | lockMtx size => cases locked <;> cases h
  | _ => cases h

@[simp] theorem place_at (th : Thread) (p : Place) : (th.at p).place = p := rfl

theorem advance_turn (h : advance t grant g th = some (g', th', es)) :
    Turn g.mallocMtx th.place.inside g'.mallocMtx th'.place.inside
      (lockKind g.mallocMtx th.place) := by
  cases hp : th.place with
  | initMtx size =>
    simp only [advance, hp] at h
    cases h
    exact .reset rfl
  | unlockMtx size ret =>
    simp only [advance, hp] at h
    cases h
    exact .release rfl rfl
  | lockMtx size =>
    simp only [advance, hp] at h
    cases h
    by_cases hlock : g.mallocMtx = true
    · simp only [lockKind, hlock, if_true]
      exact .stay rfl rfl
    · simp only [lockKind, hlock, if_false, Bool.false_eq_true]
      exact .acquire rfl rfl
  | _ =>
    simp only [advance, hp] at h
    repeat' split at h
    all_goals cases h
    all_goals exact .stay rfl rfl

/-- Outside, a thread leaves the break alone. -/
theorem advance_brk (h : advance t grant g th = some (g', th', es))
    (hout : th.place.inside = false) : g'.brk = g.brk := by
  cases hp : th.place
  all_goals rw [hp] at hout
  all_goals cases hout
  all_goals
    simp only [advance, hp] at h
    repeat' split at h
  all_goals cases h
  all_goals rfl

theorem effect_point (t : T) {size : UInt64} {p : Process} {ret : UInt64}
    (h : (malloc size grant p).1 = answer ret) :
    Effect object t p (.called size) [.point t size grant (answer ret)] (.served (answer ret))
      (malloc size grant p).2 := by
  rw [← h]
  exact .point size grant rfl

/-- A step either does not show, or is the next event of a call of `malloc` on a process with the
same break. -/
theorem advance_effect (h : advance t grant g th = some (g', th', es))
    (hr : Ready g.brk th.place) {p : Process} (hp : p.brk = g.brk) :
    ∃ p', Effect object t p (phase th.place) es (phase th'.place) p' ∧
      p'.brk = g'.brk ∧ Ready g'.brk th'.place := by
  cases hplace : th.place with
  | testSize size =>
    simp only [advance, hplace] at h
    split at h
    · rename_i hzero
      subst hzero
      cases h
      have hnull : object p 0 grant = (0, p) := rfl
      have hlast : Effect object t p (.called 0) [.point t 0 grant (object p 0 grant).1,
        .ret t (object p 0 grant).1] .idle (object p 0 grant).2 := .last 0 grant rfl
      rw [hnull] at hlast
      exact ⟨p, hlast, hp, trivial⟩
    · rename_i hsize
      cases h
      exact ⟨p, .silent, hp, hsize⟩
  | readBreak size =>
    rw [hplace] at hr
    simp only [advance, hplace] at h
    obtain ⟨hret, hbrk⟩ := malloc_eq_sbrk hr grant p
    obtain ⟨hcur, _⟩ := syscall1Brk_ask (g.proc th)
    split at h
    · rename_i hzero
      cases h
      obtain ⟨hstay, hsame⟩ := sbrk_stays hzero grant p
      have hans : (malloc size grant p).1 = answer (syscall1Brk 0 false (g.proc th)).1 := by
        rw [hret, hstay, hcur, hp]
        rfl
      exact ⟨_, effect_point t hans, (hbrk.trans hsame).trans hp, hr⟩
    · rename_i hne
      cases h
      refine ⟨p, .silent, hp, hr, hne, ?_⟩
      exact hcur
  | moveBreak size curBreak =>
    rw [hplace] at hr
    obtain ⟨hsize, hne, rfl⟩ := hr
    obtain ⟨hret, hbrk⟩ := malloc_eq_sbrk hsize grant p
    obtain ⟨hmove, hafter⟩ := sbrk_moves hne grant (p := p) (q := g.proc th) hp.symm
    rw [hp] at hmove hafter
    rw [hmove] at hret
    simp only [advance, hplace] at h
    split at h
    · rename_i hfail
      cases h
      rw [if_pos hfail] at hret
      exact ⟨_, effect_point t hret, hbrk.trans hafter, hsize⟩
    · rename_i hmoved
      cases h
      rw [if_neg hmoved] at hret
      exact ⟨_, effect_point t hret, hbrk.trans hafter, hsize⟩
  | storeSize size ret =>
    simp only [advance, hplace] at h
    have hans : ∀ {a}, a = answer ret → Effect object t p
        (phase (.storeSize size ret)) [.ret t a] .idle p := fun h => .ret _ (h ▸ rfl)
    split at h
    · rename_i hfail
      cases h
      exact ⟨p, hans (if_pos hfail).symm, hp, trivial⟩
    · rename_i hfound
      cases h
      exact ⟨p, hans (if_neg hfound).symm, hp, trivial⟩
  | user =>
    simp only [advance, hplace] at h
    cases h
  | _ =>
    rw [hplace] at hr
    simp only [advance, hplace] at h
    cases h
    refine ⟨p, ?_, hp, ?_⟩
    all_goals
      simp only [place_at]
      try split
    all_goals first | exact .silent | exact hr

end Advance

universe u
variable {T : Type u} [DecidableEq T]

def view (s : State T) : View T where
  locked := s.shared.mallocMtx
  inside t := (s.threads t).place.inside

/-- The next step of some thread is the store that `mtx_init` makes. -/
def InitsMutex (s : State T) : Act T → Prop
  | .call _ _ | .write _ _ _ => False
  | .go t _ => lockKind s.shared.mallocMtx (s.threads t).place = .reset

/-- `mtx_init` is only run while nobody is between `mtx_lock` and `mtx_unlock`. -/
def QuietInit (s : State T) (a : Act T) : Prop := InitsMutex s a → Vacant (view s)

instance (s : State T) : ∀ a, Decidable (InitsMutex s a)
  | .call _ _ | .write _ _ _ => isFalse id
  | .go _ _ => inferInstanceAs (Decidable (_ = _))

instance {n : Nat} (s : State (Fin n)) (a : Act (Fin n)) : Decidable (QuietInit s a) :=
  inferInstanceAs (Decidable (_ → _))

structure Inv (p₀ : Process) (s : State T) : Prop where
  guarded : Guarded (view s)
  ready : ∀ t, Ready s.shared.brk (s.threads t).place
  linear : ∃ p, Linearizes object p₀ s.trace (fun t => phase (s.threads t).place) p ∧
    p.brk = s.shared.brk

section Step

variable {s s' : State T} {t : T} {grant : Bool} {size : UInt64} {p₀ : Process}

theorem step_call (h : step s (.call t size) = some s') : (s.threads t).place = .user ∧
    s' = moved s t s.shared ((s.threads t).at (.testSize size)) [.call t size] := by
  simp only [step] at h
  split at h
  · rename_i huser
    exact ⟨huser, (Option.some.inj h).symm⟩
  · cases h

theorem step_write {addr : UInt64} {b : UInt8} (h : step s (.write t addr b) = some s') :
    (s.threads t).place = .user ∧
      s' = { s with shared := { s.shared with mem := setByte s.shared.mem addr b } } := by
  simp only [step] at h
  split at h
  · rename_i huser
    exact ⟨huser, (Option.some.inj h).symm⟩
  · cases h

theorem step_go (h : step s (.go t grant) = some s') :
    ∃ g th es, advance t grant s.shared (s.threads t) = some (g, th, es) ∧
      s' = moved s t g th es := by
  obtain ⟨⟨g, th, es⟩, hadv, hs'⟩ := Option.map_eq_some_iff.mp h
  exact ⟨g, th, es, hadv, hs'.symm⟩

section Moved

variable {g : Shared} {th : Thread} {es : List (MallocThreads.Event T)}

@[simp] theorem moved_shared : (moved s t g th es).shared = g := rfl

@[simp] theorem moved_trace : (moved s t g th es).trace = s.trace ++ es := rfl

@[simp] theorem moved_self : (moved s t g th es).threads t = th := Function.update_self ..

theorem moved_of_ne {u : T} (hu : u ≠ t) : (moved s t g th es).threads u = s.threads u :=
  Function.update_of_ne hu ..

theorem phase_moved : (fun u => phase ((moved s t g th es).threads u).place) =
    Function.update (fun u => phase (s.threads u).place) t (phase th.place) := by
  funext u
  by_cases hu : u = t
  · subst hu
    rw [moved_self, Function.update_self]
  · rw [moved_of_ne hu, Function.update_of_ne hu]

theorem view_moves {k : Kind} (hturn : Turn s.shared.mallocMtx (s.threads t).place.inside
    g.mallocMtx th.place.inside k) : Moves t k (view s) (view (moved s t g th es)) where
  own := by simpa only [view, moved_shared, moved_self] using hturn
  others u hu := by simp only [view, moved_of_ne hu]

/-- Only a thread inside moves the break that the others inside would rely on. -/
theorem inv_moved {k : Kind} (hi : Inv p₀ s)
    (hturn : Turn s.shared.mallocMtx (s.threads t).place.inside g.mallocMtx th.place.inside k)
    (hquiet : k = .reset → Vacant (view s)) (hready : Ready g.brk th.place)
    (heffect : ∀ p, p.brk = s.shared.brk → ∃ p', Effect object t p (phase (s.threads t).place) es
      (phase th.place) p' ∧ p'.brk = g.brk)
    (hout : (s.threads t).place.inside = false → g.brk = s.shared.brk) :
    Inv p₀ (moved s t g th es) := by
  refine ⟨hi.guarded.step (view_moves hturn) hquiet, fun u => ?_, ?_⟩
  · by_cases hu : u = t
    · subst hu
      rwa [moved_self]
    rw [moved_of_ne hu]
    cases hin : (s.threads t).place.inside with
    | true => exact ready_of_outside (hi.guarded.others_out hin hu) (hi.ready u)
    | false =>
      rw [moved_shared, hout hin]
      exact hi.ready u
  · obtain ⟨p, hlin, hbrk⟩ := hi.linear
    obtain ⟨p', heff, hbrk'⟩ := heffect p hbrk
    refine ⟨p', ?_, hbrk'⟩
    rw [phase_moved]
    exact hlin.effect heff

end Moved

theorem inv_step {a : Act T} (hi : Inv p₀ s) (hquiet : QuietInit s a) (h : step s a = some s') :
    Inv p₀ s' := by
  cases a with
  | call t size =>
    obtain ⟨huser, rfl⟩ := step_call h
    refine inv_moved hi (.stay rfl ?_) nofun trivial (fun p hp => ⟨p, .call size ?_, hp⟩)
      fun _ => rfl
    · rw [huser]
      rfl
    · rw [huser]
      rfl
  | write t addr b =>
    obtain ⟨_, rfl⟩ := step_write h
    exact ⟨hi.guarded, hi.ready, hi.linear⟩
  | go t grant =>
    obtain ⟨g, th, es, hadv, rfl⟩ := step_go h
    obtain ⟨p, hlin, hbrk⟩ := hi.linear
    obtain ⟨_, _, _, hready⟩ := advance_effect hadv (hi.ready t) hbrk
    refine inv_moved hi (advance_turn hadv) hquiet hready (fun q hq => ?_) (advance_brk hadv)
    obtain ⟨q', heff, hbrk', _⟩ := advance_effect hadv (hi.ready t) hq
    exact ⟨q', heff, hbrk'⟩

omit [DecidableEq T] in
theorem vacant_initial (brk : UInt64) (mem : UInt64 → UInt8) : Vacant (view (initial T brk mem)) :=
  fun _ => rfl

theorem inv_initial (brk : UInt64) (mem : UInt64 → UInt8) :
    Inv ⟨brk, mem, 0⟩ (initial T brk mem) where
  guarded := guarded_of_vacant (vacant_initial brk mem)
  ready _ := trivial
  linear := ⟨⟨brk, mem, 0⟩, .nil, rfl⟩

end Step

section Startup

/-- Between finding `malloc_mtx_init` unset and setting it. -/
def initializing : Place → Bool
  | .testAndSetFlag _ | .initMtx _ | .storeInit _ => true
  | _ => false

/-- A call that will set `malloc_mtx_init` if it is not set. -/
def willInit : Place → Bool
  | .testSize size => size ≠ 0
  | .readInit _ | .testAndSetFlag _ | .initMtx _ | .storeInit _ => true
  | _ => false

/-- The lock is initialized, and it will not be again. -/
def Started (s : State T) : Prop :=
  s.shared.mallocMtxInit = true ∧ ∀ t, initializing (s.threads t).place = false

/-- Only thread `main` has run, and it is in its first call or through with the initialization. -/
structure Booting (main : T) (s : State T) : Prop where
  others : ∀ u, u ≠ main → (s.threads u).place = .user
  first : s.shared.mallocMtxInit = false → willInit (s.threads main).place = true
  through : s.shared.mallocMtxInit = true → initializing (s.threads main).place = false

variable {t : T} {grant : Bool} {g g' : Shared} {th th' : Thread}
  {es : List (MallocThreads.Event T)} {s s' : State T} {a : Act T} {main : T}

omit [DecidableEq T] in
theorem advance_started (h : advance t grant g th = some (g', th', es))
    (hinit : g.mallocMtxInit = true) (hp : initializing th.place = false) :
    g'.mallocMtxInit = true ∧ initializing th'.place = false := by
  cases hplace : th.place with
  | readInit size =>
    simp only [advance, hplace, if_pos hinit] at h
    cases h
    exact ⟨hinit, rfl⟩
  | lockMtx size =>
    simp only [advance, hplace] at h
    cases h
    refine ⟨hinit, ?_⟩
    rw [place_at]
    split <;> rfl
  | testAndSetFlag size | initMtx size | storeInit size =>
    rw [hplace] at hp
    cases hp
  | _ =>
    simp only [advance, hplace] at h
    repeat' split at h
    all_goals cases h
    all_goals exact ⟨hinit, rfl⟩

theorem started_step (hs : Started s) (h : step s a = some s') : Started s' := by
  obtain ⟨hinit, hplaces⟩ := hs
  cases a with
  | call t size =>
    obtain ⟨_, rfl⟩ := step_call h
    refine ⟨hinit, fun u => ?_⟩
    by_cases hu : u = t
    · subst hu
      rw [moved_self]
      rfl
    · rw [moved_of_ne hu]
      exact hplaces u
  | write t addr b =>
    obtain ⟨_, rfl⟩ := step_write h
    exact ⟨hinit, hplaces⟩
  | go t grant =>
    obtain ⟨g, th, es, hadv, rfl⟩ := step_go h
    obtain ⟨hinit', hplace⟩ := advance_started hadv hinit (hplaces t)
    refine ⟨hinit', fun u => ?_⟩
    by_cases hu : u = t
    · subst hu
      rwa [moved_self]
    · rw [moved_of_ne hu]
      exact hplaces u

omit [DecidableEq T] in
theorem Started.quiet (hs : Started s) (a : Act T) : QuietInit s a := by
  intro hinits
  cases a with
  | go t grant =>
    obtain ⟨size, hp⟩ := lockKind_eq_reset hinits
    have := hs.2 t
    rw [hp] at this
    cases this
  | _ => exact hinits.elim

omit [DecidableEq T] in
theorem advance_first (h : advance t grant g th = some (g', th', es))
    (hinit : g.mallocMtxInit = false) (hp : willInit th.place = true) :
    (g'.mallocMtxInit = false → willInit th'.place = true) ∧
      (g'.mallocMtxInit = true → initializing th'.place = false) := by
  cases hplace : th.place with
  | testSize size =>
    rw [hplace] at hp
    simp only [advance, hplace, if_neg (of_decide_eq_true hp)] at h
    cases h
    exact ⟨fun _ => rfl, fun _ => rfl⟩
  | readInit size =>
    simp only [advance, hplace, hinit, Bool.false_eq_true, if_false] at h
    cases h
    exact ⟨fun _ => rfl, fun hset => absurd (hinit.symm.trans hset) Bool.false_ne_true⟩
  | testAndSetFlag size =>
    simp only [advance, hplace] at h
    cases h
    refine ⟨fun _ => ?_, fun hset => absurd (hinit.symm.trans hset) Bool.false_ne_true⟩
    rw [place_at]
    split <;> rfl
  | initMtx size =>
    simp only [advance, hplace] at h
    cases h
    exact ⟨fun _ => rfl, fun hset => absurd (hinit.symm.trans hset) Bool.false_ne_true⟩
  | storeInit size =>
    simp only [advance, hplace] at h
    cases h
    exact ⟨fun hunset => absurd hunset.symm Bool.false_ne_true, fun _ => rfl⟩
  | _ =>
    rw [hplace] at hp
    cases hp

theorem booting_step (hb : Booting main s) (ha : a.thread = main) (h : step s a = some s') :
    Booting main s' := by
  cases a with
  | call t size =>
    obtain rfl : t = main := ha
    obtain ⟨huser, rfl⟩ := step_call h
    refine ⟨fun u hu => ?_, fun hunset => ?_, fun _ => ?_⟩
    · rw [moved_of_ne hu]
      exact hb.others u hu
    · -- a thread at user is not in its first call
      have := hb.first hunset
      rw [huser] at this
      cases this
    · rw [moved_self]
      rfl
  | write t addr b =>
    obtain ⟨_, rfl⟩ := step_write h
    exact ⟨hb.others, hb.first, hb.through⟩
  | go t grant =>
    obtain rfl : t = main := ha
    obtain ⟨g, th, es, hadv, rfl⟩ := step_go h
    have hnext : (g.mallocMtxInit = false → willInit th.place = true) ∧
        (g.mallocMtxInit = true → initializing th.place = false) := by
      cases hinit : s.shared.mallocMtxInit with
      | false => exact advance_first hadv hinit (hb.first hinit)
      | true =>
        obtain ⟨hset, hplace⟩ := advance_started hadv hinit (hb.through hinit)
        exact ⟨fun hunset => absurd (hunset.symm.trans hset) Bool.false_ne_true, fun _ => hplace⟩
    refine ⟨fun u hu => ?_, ?_, ?_⟩
    · rw [moved_of_ne hu]
      exact hb.others u hu
    · rw [moved_self]
      exact hnext.1
    · rw [moved_self]
      exact hnext.2

omit [DecidableEq T] in
theorem Booting.quiet (hb : Booting main s) (a : Act T) : QuietInit s a := by
  intro hinits
  cases a with
  | go t grant =>
    obtain ⟨size, hp⟩ := lockKind_eq_reset hinits
    have hmain : t = main := by
      by_contra hne
      rw [hb.others t hne] at hp
      cases hp
    intro u
    change (s.threads u).place.inside = false
    by_cases hu : u = main
    · rw [hu, ← hmain, hp]
      rfl
    · rw [hb.others u hu]
      rfl
  | _ => exact hinits.elim

/-- The first act of the process is a call of `malloc` by one thread, which has come back from it.
Nobody else has run. -/
def StartsUp (brk : UInt64) (mem : UInt64 → UInt8) (boot : List (Act T)) (s₀ : State T) : Prop :=
  ∃ main size pre, boot = .call main size :: pre ∧ size ≠ 0 ∧ (∀ a ∈ pre, a.thread = main) ∧
    exec step (initial T brk mem) boot = some s₀ ∧ (s₀.threads main).place = .user

variable {brk : UInt64} {mem : UInt64 → UInt8} {boot acts : List (Act T)} {s₀ : State T}

theorem booting_first {size : UInt64} (hsize : size ≠ 0)
    (h : step (initial T brk mem) (.call main size) = some s') : Booting main s' := by
  obtain ⟨_, rfl⟩ := step_call h
  refine ⟨fun u hu => ?_, fun _ => ?_, nofun⟩
  · rw [moved_of_ne hu]
    rfl
  · rw [moved_self]
    exact decide_eq_true hsize

theorem StartsUp.quiet (h : StartsUp brk mem boot s₀) :
    Along step QuietInit (initial T brk mem) boot := by
  obtain ⟨main, size, pre, rfl, hsize, hpre, _, _⟩ := h
  refine ⟨False.elim, fun m hm => ?_⟩
  exact (along_of_forall hpre m).of_inv (fun _ a hb _ => hb.quiet a)
    (fun _ _ _ hb ha hs => booting_step hb ha hs) (booting_first hsize hm)

theorem StartsUp.started (h : StartsUp brk mem boot s₀) : Started s₀ := by
  obtain ⟨main, size, pre, rfl, hsize, hpre, hexec, huser⟩ := h
  rw [exec_cons] at hexec
  obtain ⟨m, hm, hrest⟩ := Option.bind_eq_some_iff.mp hexec
  have hb : Booting main s₀ :=
    inv_of_exec (fun _ _ _ hb ha hs => booting_step hb ha hs) (booting_first hsize hm)
      (along_of_forall hpre m) hrest
  have hinit : s₀.shared.mallocMtxInit = true := by
    by_contra hunset
    have := hb.first (by simpa using hunset)
    rw [huser] at this
    cases this
  refine ⟨hinit, fun u => ?_⟩
  by_cases hu : u = main
  · rw [hu]
    exact hb.through hinit
  · rw [hb.others u hu]
    rfl

theorem StartsUp.inv (h : StartsUp brk mem boot s₀) : Inv ⟨brk, mem, 0⟩ s₀ := by
  have hquiet := h.quiet
  obtain ⟨_, _, _, _, _, _, hexec, _⟩ := h
  exact inv_of_exec (fun _ _ _ hi hq hs => inv_step hi hq hs) (inv_initial brk mem) hquiet hexec

theorem Started.along_quiet (hs : Started s₀) (acts : List (Act T)) :
    Along step QuietInit s₀ acts :=
  (along_of_forall (p := fun _ => True) (fun _ _ => trivial) s₀).of_inv
    (fun _ a hs _ => hs.quiet a) (fun _ _ _ hs _ h => started_step hs h) hs

theorem inv_of_startsUp (hup : StartsUp brk mem boot s₀) (h : exec step s₀ acts = some s) :
    Inv ⟨brk, mem, 0⟩ s :=
  inv_of_exec (fun _ _ _ hi hq hs => inv_step hi hq hs) hup.inv
    (hup.started.along_quiet acts) h

end Startup

/-- Once the process has started up, whatever its threads do: the answers of `malloc` are those of
calls one after another, each of which takes effect between its start and its return. The
break is where these calls leave it. -/
theorem malloc_linearizable (brk : UInt64) (mem : UInt64 → UInt8) (boot acts : List (Act T))
    (s₀ s : State T) (hup : StartsUp brk mem boot s₀) (h : exec step s₀ acts = some s) :
    Exclusive (view s) ∧ Matched s.trace ∧
      ∃ p, Serial object ⟨brk, mem, 0⟩ (points s.trace) p ∧ p.brk = s.shared.brk := by
  have hinv := inv_of_startsUp hup h
  obtain ⟨p, hlin, hbrk⟩ := hinv.linear
  exact ⟨hinv.guarded.exclusive, hlin.matched, p, hlin.serial, hbrk⟩

def goes (t : Fin 2) (n : Nat) : List (Act (Fin 2)) := List.replicate n (.go t true)

/-- Thread 0 allocates its thread object, which is the first call of all. -/
def startupActs (main : Fin 2) : List (Act (Fin 2)) := .call main 576 :: goes main 11

/-- Thread 1 calls while thread 0 is in `sbrk`, and waits for it. -/
def bothCall (t u : Fin 2) : List (Act (Fin 2)) :=
  [.call t 24] ++ goes t 4 ++ [.call u 100] ++ goes u 3 ++ goes t 3 ++ goes u 5

theorem startsUp_two : ∃ s₀ : State (Fin 2),
    exec step (initial (Fin 2) 0x10000 fun _ => 0) (startupActs 0) = some s₀ ∧
      StartsUp 0x10000 (fun _ => 0) (startupActs 0) s₀ := by
  have hback : (exec step (initial (Fin 2) 0x10000 fun _ => 0) (startupActs 0)).map
      (fun s => (s.threads 0).place) = some .user := by decide +kernel
  obtain ⟨s₀, hexec, huser⟩ := Option.map_eq_some_iff.mp hback
  have hgoes : ∀ a ∈ goes 0 11, a.thread = 0 := by
    intro a ha
    rw [List.eq_of_mem_replicate ha]
    rfl
  exact ⟨s₀, hexec, 0, 576, goes 0 11, rfl, by decide, hgoes, hexec, huser⟩

theorem malloc_linearizable_two : ∃ s : State (Fin 2),
    points s.trace = [(576, true, 0x10008), (24, true, 0x10250), (100, true, 0x10270)] ∧
      Exclusive (view s) ∧ Matched s.trace ∧
      ∃ p, Serial object ⟨0x10000, fun _ => 0, 0⟩ (points s.trace) p ∧ p.brk = s.shared.brk := by
  have hpoints : ((exec step (initial (Fin 2) 0x10000 fun _ => 0) (startupActs 0)).bind
      (fun s => exec step s (bothCall 1 0))).map (fun s => points s.trace) =
      some [(576, true, 0x10008), (24, true, 0x10250), (100, true, 0x10270)] := by decide +kernel
  obtain ⟨s₀, hexec₀, hup⟩ := startsUp_two
  rw [hexec₀, Option.bind_some] at hpoints
  obtain ⟨s, hexec, hs⟩ := Option.map_eq_some_iff.mp hpoints
  exact ⟨s, hs, malloc_linearizable 0x10000 (fun _ => 0) (startupActs 0) (bothCall 1 0) s₀ s
    hup hexec⟩

end MallocLinear
