import Libdeepc.BreakHeap
import Libdeepc.Machine
import Libdeepc.Runs

/-!
# The thread pointer

Every thread finds its object through the `fs` register: `thrd_current`, the stack
protector at `fs:0x28` and the thread-local variables in front of the object. A new
thread begins on the register of its creator, and the process itself on what the
program loader has set up, until `setup_tls` is called.
-/

namespace ThreadPointer

open BreakHeap Machine Runs WordMemory

section Listings

def thrdCurrent : List Instr := [.loadFs .rax 0, .ret]

def copyStackProtector : List Instr := [.loadFs .rsi 0x28, .store .rdi 0 .rsi, .ret]

/-- State `t` is behind the call that begins in `s`, with the callee-saved registers. -/
structure Returned (s t : Machine.State) : Prop where
  rip : t.rip = load64 s.mem (s.regs .rsp)
  rsp : t.regs .rsp = s.regs .rsp + 8
  fsBase : t.fsBase = s.fsBase
  calleeSaved : ∀ r ∈ calleeSaved, t.regs r = s.regs r

variable {code : Code} {kernel : Kernel} {s : Machine.State}

theorem exec_ret (next : UInt64) : Machine.exec kernel next s .ret =
    { s.set .rsp (s.regs .rsp + 8) with rip := load64 s.mem (s.regs .rsp) } := rfl

theorem thrdCurrent_returns (kernel : Kernel) (h : Placed code s.rip thrdCurrent) :
    ∃ t, Reaches code kernel s t ∧ Returned s t ∧ t.mem = s.mem ∧
      t.regs .rax = load64 s.mem s.fsBase := by
  have hplaced : Placed code s.rip ([.loadFs .rax 0] ++ [.ret]) := h
  obtain ⟨last, next, _, hreach⟩ := reaches_block kernel hplaced (by decide)
  rw [exec_ret] at hreach
  refine ⟨_, hreach, ⟨rfl, rfl, rfl, ?_⟩, rfl, ?_⟩
  · intro r hr
    simp only [Machine.calleeSaved, List.mem_cons, List.not_mem_nil, or_false] at hr
    rcases hr with rfl | rfl | rfl | rfl | rfl | rfl <;> rfl
  · change load64 s.mem (s.fsBase + 0) = _
    rw [UInt64.add_zero]

/-- The return address lies apart from the word that is written. -/
theorem copyStackProtector_copies (kernel : Kernel) (h : Placed code s.rip copyStackProtector)
    (hslot : Apart (s.regs .rsp) (s.regs .rdi)) :
    ∃ t, Reaches code kernel s t ∧ Returned s t ∧
      t.mem = store64 s.mem (s.regs .rdi) (load64 s.mem (s.fsBase + 0x28)) := by
  have hplaced : Placed code s.rip ([.loadFs .rsi 0x28, .store .rdi 0 .rsi] ++ [.ret]) := h
  obtain ⟨last, next, _, hreach⟩ := reaches_block kernel hplaced (by decide)
  rw [exec_ret] at hreach
  have hmem : store64 s.mem (s.regs .rdi + 0) (load64 s.mem (s.fsBase + 0x28)) =
      store64 s.mem (s.regs .rdi) (load64 s.mem (s.fsBase + 0x28)) := by rw [UInt64.add_zero]
  refine ⟨_, hreach, ⟨?_, rfl, rfl, ?_⟩, hmem⟩
  · change load64 (store64 s.mem (s.regs .rdi + 0) _) (s.regs .rsp) = _
    rw [UInt64.add_zero, load64_store64_of_apart hslot]
  · intro r hr
    simp only [Machine.calleeSaved, List.mem_cons, List.not_mem_nil, or_false] at hr
    rcases hr with rfl | rfl | rfl | rfl | rfl | rfl <;> rfl

end Listings

/-- `TLS_SPACE` -/
def tlsSpace : UInt64 := 8 * 64

/-- `TLS_SPACE + sizeof(struct __thrd_t_object)` -/
def objectSize : UInt64 := tlsSpace + 64

/-- `offsetof(struct __thrd_t_object, stack_protector)` -/
def stackProtector : UInt64 := 0x28

/-- The thread-local variables are the words up to word 64, where the object begins. -/
def word (thr : UInt64) (i : Nat) : UInt64 := thr - tlsSpace + 8 * .ofNat i

/-- How far `create_thrd_t` has come with an object. -/
inductive Stage
  | blank | named | complete
  deriving DecidableEq

/-- A thread is `born` from `clone` to the end of `setup_tls`. -/
inductive Life
  | absent | loading | born | running | gone
  deriving DecidableEq

universe u
variable {T : Type u}

/-- `stored` is what a thread itself has stored in its variables. -/
structure State (T : Type u) where
  proc : Process
  fsBase : T → UInt64
  life : T → Life
  object : T → Option (UInt64 × Stage)
  stored : T → Nat → Option UInt64

inductive Act (T : Type u)
  | malloc (size : UInt64) (grant : Bool)
  | newObject (t u : T) (grant : Bool)
  | storeSelf (t u : T) (thr : UInt64)
  | copyProtector (t u : T) (thr : UInt64)
  | giveUp (t u : T)
  | clone (t u : T) (thr : UInt64)
  | setupTls (t : T) (thr : UInt64)
  | storeLocal (t : T) (i : Nat) (v : UInt64)
  | write (a : UInt64) (b : UInt8)
  | exit (t : T)

/-- The first thread makes its own object, and each thread those of the threads it creates. -/
def Creates (s : State T) (t u : T) : Prop :=
  s.life t = .running ∧ s.life u = .absent ∨ s.life t = .loading ∧ u = t

def State.setMem (s : State T) (mem : Memory) : State T :=
  { s with proc := { s.proc with mem := mem } }

section Run

variable [DecidableEq T]

instance (s : State T) (t u : T) : Decidable (Creates s t u) :=
  inferInstanceAs (Decidable (_ ∨ _))

def State.setObject (s : State T) (u : T) (o : Option (UInt64 × Stage)) : State T :=
  { s with object := Function.update s.object u o }

/-- Thread `t` goes on with another register. -/
def State.setLife (s : State T) (t : T) (base : UInt64) (l : Life) : State T :=
  { s with fsBase := Function.update s.fsBase t base, life := Function.update s.life t l }

/-- The `malloc` of `create_thrd_t`. -/
def State.newObject (s : State T) (u : T) (grant : Bool) : State T :=
  let r := malloc objectSize grant s.proc
  if r.1 = 0 then { s with proc := r.2 }
  else { s with proc := r.2 }.setObject u (some (r.1 + tlsSpace, .blank))

def State.setStored (s : State T) (t : T) (i : Nat) (v : UInt64) : State T :=
  { s with stored := Function.update s.stored t (Function.update (s.stored t) i (some v)) }

def step (s : State T) : Act T → Option (State T)
  | .malloc size grant => some { s with proc := (BreakHeap.malloc size grant s.proc).2 }
  | .newObject t u grant =>
    if Creates s t u ∧ s.object u = none then some (s.newObject u grant) else none
  | .storeSelf t u thr =>
    if Creates s t u ∧ s.object u = some (thr, .blank) then
      some ((s.setMem (store64 s.proc.mem thr thr)).setObject u (some (thr, .named)))
    else none
  | .copyProtector t u thr =>
    if Creates s t u ∧ s.object u = some (thr, .named) then
      let protector := load64 s.proc.mem (s.fsBase t + stackProtector)
      some ((s.setMem (store64 s.proc.mem (thr + stackProtector) protector)).setObject u
        (some (thr, .complete)))
    else none
  -- `thrd_create` fails, and `free` does nothing
  | .giveUp t u =>
    if s.life t = .running ∧ s.life u = .absent then some (s.setObject u none) else none
  | .clone t u thr =>
    if s.life t = .running ∧ s.life u = .absent ∧ s.object u = some (thr, .complete) then
      some (s.setLife u (s.fsBase t) .born)
    else none
  | .setupTls t thr =>
    if (s.life t = .born ∨ s.life t = .loading) ∧ s.object t = some (thr, .complete) then
      some (s.setLife t thr .running)
    else none
  | .storeLocal t i v =>
    if s.life t = .running ∧ i < 64 then
      some ((s.setMem (store64 s.proc.mem (word (s.fsBase t) i) v)).setStored t i v)
    else none
  | .write a b => some (s.setMem (Function.update s.proc.mem a b))
  | .exit t =>
    if s.life t = .running then some (s.setLife t (s.fsBase t) .gone) else none

/-- Before `__libc_start_main`: only the first thread is there. -/
def initial (main : T) (loader brk : UInt64) (mem : Memory) : State T where
  proc := ⟨brk, mem, 0⟩
  fsBase := Function.update (fun _ => 0) main loader
  life := Function.update (fun _ => .absent) main .loading
  object _ := none
  stored _ _ := none

end Run

/-- The size and the header together are less than the address space, and the kernel grants no
break above the limit. -/
def Room (limit : UInt64) (s : State T) (size : UInt64) (grant : Bool) : Prop :=
  metadataSize.toNat + size.toNat < 2 ^ 64 ∧
    (grant = true → s.proc.brk.toNat + metadataSize.toNat + size.toNat ≤ limit.toNat)

/-- What only the owner of an object writes to: its variables and its first word, and the stack
protector. -/
def Owned (thr a : UInt64) : Prop :=
  Within (thr - tlsSpace) (tlsSpace + 8) a ∨ Within (thr + stackProtector) 8 a

/-- The program writes to no such place, and not to the loader's stack protector. -/
def Polite (loader limit : UInt64) (s : State T) : Act T → Prop
  | .malloc size grant => Room limit s size grant
  | .newObject _ _ grant => Room limit s objectSize grant
  | .write a _ => ¬Within (loader + stackProtector) 8 a ∧ ∀ u, ∀ o ∈ s.object u, ¬Owned o.1 a
  | .storeSelf _ _ _ | .copyProtector _ _ _ | .giveUp _ _ | .clone _ _ _ | .setupTls _ _
  | .storeLocal _ _ _ | .exit _ => True

instance (thr a : UInt64) : Decidable (Owned thr a) := inferInstanceAs (Decidable (_ ∨ _))

instance (limit : UInt64) (s : State T) (size : UInt64) (grant : Bool) :
    Decidable (Room limit s size grant) := inferInstanceAs (Decidable (_ ∧ (_ → _)))

instance {n : Nat} (loader limit : UInt64) (s : State (Fin n)) :
    ∀ a, Decidable (Polite loader limit s a)
  | .malloc size grant => inferInstanceAs (Decidable (Room limit s size grant))
  | .newObject _ _ grant => inferInstanceAs (Decidable (Room limit s objectSize grant))
  | .write a _ => inferInstanceAs (Decidable (¬Within (loader + stackProtector) 8 a ∧
    ∀ u, ∀ o ∈ s.object u, ¬Owned o.1 a))
  | .storeSelf _ _ _ | .copyProtector _ _ _ | .giveUp _ _ | .clone _ _ _ | .setupTls _ _
  | .storeLocal _ _ _ | .exit _ => isTrue trivial

section Words

/-- A block for an object: between the lowest address that `malloc` returns and the break. -/
def Inside (brk thr : UInt64) : Prop := 520 ≤ thr.toNat ∧ thr.toNat + 64 ≤ brk.toNat

variable {thr thr' brk : UInt64} {i j : Nat}

theorem toNat_word (h : Inside brk thr) (hi : i < 72) :
    (word thr i).toNat = thr.toNat - 512 + 8 * i := by
  obtain ⟨hlow, hhigh⟩ := h
  have h512 : tlsSpace.toNat = 512 := rfl
  have h8 : (8 : UInt64).toNat = 8 := rfl
  have hbrk := brk.toNat_lt
  rw [word, UInt64.toNat_add, UInt64.toNat_sub, UInt64.toNat_mul, UInt64.toNat_ofNat', h512, h8]
  omega

theorem word_self (h : Inside brk thr) : word thr 64 = thr := by
  apply UInt64.toNat_inj.mp
  rw [toNat_word h (by decide)]
  have hlow := h.1
  omega

theorem word_protector (h : Inside brk thr) : word thr 69 = thr + stackProtector := by
  obtain ⟨hlow, hhigh⟩ := h
  have hp : stackProtector.toNat = 40 := rfl
  have hbrk := brk.toNat_lt
  apply UInt64.toNat_inj.mp
  rw [toNat_word ⟨hlow, hhigh⟩ (by decide), UInt64.toNat_add, hp]
  omega

/-- Two words neither of which reaches over the end of the address space. -/
theorem apart_of_toNat {a b : UInt64} (h : a.toNat + 8 ≤ b.toNat ∨ b.toNat + 8 ≤ a.toNat)
    (ha : a.toNat + 8 ≤ 2 ^ 64) (hb : b.toNat + 8 ≤ 2 ^ 64) : Apart a b := by
  have h8 : (8 : UInt64).toNat = 8 := rfl
  rw [Apart, UInt64.le_iff_toNat_le, UInt64.le_iff_toNat_le, UInt64.toNat_sub, UInt64.toNat_sub, h8]
  omega

theorem word_apart (h : Inside brk thr) (h' : Inside brk thr') (hi : i < 72) (hj : j < 72)
    (hne : thr = thr' ∧ i ≠ j ∨ thr.toNat + 576 ≤ thr'.toNat ∨ thr'.toNat + 576 ≤ thr.toNat) :
    Apart (word thr i) (word thr' j) := by
  have hw := toNat_word h hi
  have hw' := toNat_word h' hj
  have hbrk := brk.toNat_lt
  obtain ⟨hlow, hhigh⟩ := h
  obtain ⟨hlow', hhigh'⟩ := h'
  apply apart_of_toNat
  · rcases hne with ⟨rfl, hne⟩ | hne <;> omega
  · omega
  · omega

/-- The words that the owner of an object relies on. -/
theorem owned_of_within (h : Inside brk thr) (hi : i ≤ 64 ∨ i = 69) {a : UInt64}
    (ha : Within (word thr i) 8 a) : Owned thr a := by
  rcases hi with hi | rfl
  · left
    have hw := toNat_word h (Nat.lt_of_le_of_lt hi (by decide))
    obtain ⟨hlow, hhigh⟩ := h
    have h512 : tlsSpace.toNat = 512 := rfl
    have h520 : (tlsSpace + 8).toNat = 520 := rfl
    have h8 : (8 : UInt64).toNat = 8 := rfl
    have ha' := a.toNat_lt
    have hthr := thr.toNat_lt
    rw [Within, UInt64.lt_iff_toNat_lt, UInt64.toNat_sub, hw, h8] at ha
    rw [Within, UInt64.lt_iff_toNat_lt, UInt64.toNat_sub, UInt64.toNat_sub, h512, h520]
    omega
  · right
    rwa [word_protector h] at ha

end Words

section Invariant

/-- What a word of an object must be, as far as it is known. -/
def content (protector thr : UInt64) (stage : Stage) (stored : Nat → Option UInt64) (i : Nat) :
    Option UInt64 :=
  if i < 64 then stored i
  else if i = 64 then (if stage = .blank then none else some thr)
  else if i = 69 then (if stage = .complete then some protector else none)
  else none

/-- The thread has come out of `setup_tls`. -/
def Started (l : Life) : Prop := l = .running ∨ l = .gone

/-- Where a thread's register points. -/
def Based (loader : UInt64) (s : State T) (t : T) : Life → Prop
  | .absent => True
  | .loading => s.fsBase t = loader
  | .born => ∃ u, Started (s.life u) ∧ s.object u = some (s.fsBase t, .complete)
  | .running | .gone => s.object t = some (s.fsBase t, .complete)

/-- The loader's stack protector lies above all that the kernel gives to the heap. -/
structure Loaded (loader limit : UInt64) : Prop where
  above : limit.toNat ≤ loader.toNat + 40
  below : loader.toNat + 48 ≤ 2 ^ 64
  limit : limit ≤ lastAddress

structure Inv (loader limit protector : UInt64) (s : State T) : Prop where
  brk : s.proc.brk.toNat ≤ limit.toNat
  inside : ∀ u thr stage, s.object u = some (thr, stage) → Inside s.proc.brk thr
  apart : ∀ u v thr thr' stage stage', u ≠ v → s.object u = some (thr, stage) →
    s.object v = some (thr', stage') → thr.toNat + 576 ≤ thr'.toNat ∨ thr'.toNat + 576 ≤ thr.toNat
  loaded : load64 s.proc.mem (loader + stackProtector) = protector
  words : ∀ u thr stage i v, s.object u = some (thr, stage) →
    content protector thr stage (s.stored u) i = some v → load64 s.proc.mem (word thr i) = v
  based : ∀ t, Based loader s t (s.life t)
  owner : ∀ t i v, s.stored t i = some v → Started (s.life t)

variable {loader limit protector : UInt64} {s s' : State T} {t u : T}
  {thr : UInt64} {stage : Stage} {i : Nat} {v : UInt64}

theorem content_cases {stored : Nat → Option UInt64}
    (h : content protector thr stage stored i = some v) : i < 64 ∧ stored i = some v ∨
      i = 64 ∧ stage ≠ .blank ∧ v = thr ∨ i = 69 ∧ stage = .complete ∧ v = protector := by
  unfold content at h
  split at h
  · exact .inl ⟨‹_›, h⟩
  · split at h
    · split at h
      · cases h
      · exact .inr (.inl ⟨‹_›, ‹_›, (Option.some.inj h).symm⟩)
    · split at h
      · split at h
        · exact .inr (.inr ⟨‹_›, ‹_›, (Option.some.inj h).symm⟩)
        · cases h
      · cases h

theorem index_of_content {stored : Nat → Option UInt64}
    (h : content protector thr stage stored i = some v) : i ≤ 64 ∨ i = 69 := by
  rcases content_cases h with ⟨hi, _⟩ | ⟨hi, _⟩ | ⟨hi, _⟩
  · exact .inl (Nat.le_of_lt hi)
  · exact .inl (Nat.le_of_eq hi)
  · exact .inr hi

theorem toNat_loader (hl : Loaded loader limit) :
    (loader + stackProtector).toNat = loader.toNat + 40 := by
  have hp : stackProtector.toNat = 40 := rfl
  have hbelow := hl.below
  rw [UInt64.toNat_add, hp]
  omega

theorem loader_apart (hl : Loaded loader limit) (h : Inv loader limit protector s)
    (hu : s.object u = some (thr, stage)) (hi : i < 72) :
    Apart (loader + stackProtector) (word thr i) := by
  have hin := h.inside u thr stage hu
  have hw := toNat_word hin hi
  have hload := toNat_loader hl
  have hbrk := h.brk
  have habove := hl.above
  have hbelow := hl.below
  obtain ⟨hlow, hhigh⟩ := hin
  apply apart_of_toNat
  · omega
  · omega
  · omega

/-- A word of one object is not touched by a store to another word. -/
theorem words_apart (h : Inv loader limit protector s) (hu : s.object u = some (thr, stage))
    {w : T} {thr' : UInt64} {stage' : Stage} (hw : s.object w = some (thr', stage')) {j : Nat}
    (hi : i < 72) (hj : j < 72) (hne : w ≠ u ∨ j ≠ i) (mem : Memory) (x : UInt64) :
    load64 (store64 mem (word thr i) x) (word thr' j) = load64 mem (word thr' j) := by
  apply load64_store64_of_apart
  apply word_apart (h.inside w thr' stage' hw) (h.inside u thr stage hu) hj hi
  by_cases hwu : w = u
  · subst hwu
    rw [hu] at hw
    cases hw
    exact .inl ⟨rfl, hne.resolve_left (not_not_intro rfl)⟩
  · exact .inr (h.apart w u thr' thr stage' stage hwu hw hu)

theorem not_started_of_creates (hc : Creates s t u) : ¬Started (s.life u) := by
  rcases hc with ⟨_, hu⟩ | ⟨hu, rfl⟩
  all_goals
    rw [hu]
    rintro (h | h) <;> cases h

/-- Only threads that have started have stored anything in their variables. -/
theorem stored_of_not_started (h : Inv loader limit protector s) (hu : ¬Started (s.life u))
    (i : Nat) : s.stored u i = none := by
  cases hs : s.stored u i with
  | none => rfl
  | some v => exact absurd (h.owner u i v hs) hu

/-- The register of a thread points to an object with a stack protector, or to what the loader has
set up. -/
theorem protector_of_life (h : Inv loader limit protector s) (ht : s.life t ≠ .absent) :
    load64 s.proc.mem (s.fsBase t + stackProtector) = protector := by
  have hobject : ∀ u, s.object u = some (s.fsBase t, .complete) →
      load64 s.proc.mem (s.fsBase t + stackProtector) = protector := by
    intro u hu
    rw [← word_protector (h.inside u _ _ hu)]
    exact h.words u _ _ 69 protector hu rfl
  have hb := h.based t
  cases hlife : s.life t with
  | absent => exact absurd hlife ht
  | loading =>
    rw [hlife] at hb
    rw [show s.fsBase t = loader from hb]
    exact h.loaded
  | born =>
    rw [hlife] at hb
    obtain ⟨u, _, hu⟩ := hb
    exact hobject u hu
  | running =>
    rw [hlife] at hb
    exact hobject t hb
  | gone =>
    rw [hlife] at hb
    exact hobject t hb

/-- Memory has changed outside the words that threads rely on. -/
theorem Inv.setMem (h : Inv loader limit protector s) (mem : Memory)
    (hloaded : load64 mem (loader + stackProtector) =
      load64 s.proc.mem (loader + stackProtector))
    (hwords : ∀ u thr stage i, s.object u = some (thr, stage) → i ≤ 64 ∨ i = 69 →
      load64 mem (word thr i) = load64 s.proc.mem (word thr i)) :
    Inv loader limit protector (s.setMem mem) where
  brk := h.brk
  inside := h.inside
  apart := h.apart
  loaded := hloaded.trans h.loaded
  words u thr stage i v hu hv :=
    (hwords u thr stage i hu (index_of_content hv)).trans (h.words u thr stage i v hu hv)
  based := h.based
  owner := h.owner

end Invariant

section Malloc

variable {limit : UInt64} {p : Process} {size : UInt64} {grant : Bool}

/-- A call of `malloc` with room: `NULL`, or a block behind its header, where the break was. -/
theorem malloc_room (hlimit : limit ≤ lastAddress) (hbrk : p.brk.toNat ≤ limit.toNat)
    (hsize : metadataSize.toNat + size.toNat < 2 ^ 64)
    (hgrant : grant = true → p.brk.toNat + metadataSize.toNat + size.toNat ≤ limit.toNat) :
    ((malloc size grant p).1 = 0 ∧ (malloc size grant p).2.brk = p.brk ∧
      (malloc size grant p).2.mem = p.mem) ∨
    ((malloc size grant p).1 = getData p.brk ∧
      (malloc size grant p).2.brk.toNat = p.brk.toNat + 8 + size.toNat ∧
      p.brk.toNat + 8 + size.toNat ≤ limit.toNat ∧
      (malloc size grant p).2.mem = storeSize p.mem p.brk size) := by
  have h8 : metadataSize.toNat = 8 := rfl
  have hlast : lastAddress.toNat = 2 ^ 64 - 4096 := rfl
  rw [UInt64.le_iff_toNat_le] at hlimit
  have hne : size + metadataSize ≠ 0 := by
    intro hzero
    have hnat := congrArg UInt64.toNat hzero
    rw [UInt64.toNat_add, h8] at hnat
    have h0 : (0 : UInt64).toNat = 0 := rfl
    omega
  by_cases hzero : size = 0 ∨ grant = false
  · left
    have hnull : (malloc size grant p).1 = 0 ∧
        ∃ e, (malloc size grant p).2 = { p with errno := e } :=
      malloc_null (hzero.imp_right fun hg => ⟨hg, hne⟩)
    obtain ⟨hret, e, hs⟩ := hnull
    rw [hs]
    exact ⟨hret, rfl, rfl⟩
  · right
    obtain ⟨hsize0, hg⟩ := not_or.mp hzero
    have hg : grant = true := by simpa using hg
    have hroom := hgrant hg
    subst hg
    have hle : p.brk ≤ lastAddress := by
      rw [UInt64.le_iff_toNat_le]
      omega
    have hsum : (p.brk + (size + metadataSize)).toNat = p.brk.toNat + 8 + size.toNat := by
      rw [UInt64.toNat_add, UInt64.toNat_add]
      omega
    have hnext : p.brk + (size + metadataSize) ≤ lastAddress := by
      rw [UInt64.le_iff_toNat_le, hsum]
      omega
    rw [malloc_granted hsize0 hne hle hnext]
    exact ⟨rfl, hsum, by omega, rfl⟩

/-- The header is put at the break: words below and above stay. -/
theorem load64_storeSize {mem : Memory} {brk size a : UInt64}
    (h : a.toNat + 8 ≤ brk.toNat ∨ brk.toNat + 8 ≤ a.toNat) (ha : a.toNat + 8 ≤ 2 ^ 64)
    (hbrk : brk.toNat + 8 ≤ 2 ^ 64) : load64 (storeSize mem brk size) a = load64 mem a :=
  load64_congr fun _ hk => if_neg (not_within_of_apart (apart_of_toNat h ha hbrk) hk)

end Malloc

section Steps

variable {loader limit protector brk : UInt64} {s s' : State T} {t u : T}
  {thr size : UInt64} {stage : Stage} {i : Nat} {v : UInt64} {grant : Bool}

/-- A block has been taken, or `malloc` has failed. -/
theorem inv_malloc (hl : Loaded loader limit) (h : Inv loader limit protector s)
    (hroom : Room limit s size grant) :
    Inv loader limit protector { s with proc := (malloc size grant s.proc).2 } := by
  have hbrk := h.brk
  have habove := hl.above
  have hbelow := hl.below
  have hload := toNat_loader hl
  rcases malloc_room hl.limit h.brk hroom.1 hroom.2 with ⟨_, hb, hm⟩ | ⟨_, hb, hle, hm⟩
  · have hkeep := h.setMem s.proc.mem rfl fun _ _ _ _ _ _ => rfl
    exact { hkeep with
      brk := hb ▸ h.brk
      inside := hb ▸ h.inside
      loaded := hm ▸ h.loaded
      words := hm ▸ h.words }
  · have hgrow : s.proc.brk.toNat ≤ (malloc size grant s.proc).2.brk.toNat := by omega
    have hkeep := h.setMem (storeSize s.proc.mem s.proc.brk size)
      (load64_storeSize (by omega) (by omega) (by omega))
      (fun u thr stage i hu hi => by
        have hin := h.inside u thr stage hu
        have hw := toNat_word hin (show i < 72 by omega)
        obtain ⟨hlow, hhigh⟩ := hin
        exact load64_storeSize (by omega) (by omega) (by omega))
    exact { hkeep with
      brk := hb.trans_le hle
      inside := fun u thr stage hu => by
        obtain ⟨hlow, hhigh⟩ := h.inside u thr stage hu
        exact ⟨hlow, hhigh.trans hgrow⟩
      loaded := hm ▸ hkeep.loaded
      words := hm ▸ hkeep.words }

/-- Bytes outside the owned places. -/
theorem inv_write (h : Inv loader limit protector s) {a : UInt64} {b : UInt8}
    (hp : Polite loader limit s (.write a b)) :
    Inv loader limit protector (s.setMem (Function.update s.proc.mem a b)) := by
  obtain ⟨hloader, howned⟩ := hp
  have hkeep : ∀ x, ¬Within x 8 a →
      load64 (Function.update s.proc.mem a b) x = load64 s.proc.mem x := by
    intro x hx
    refine load64_congr fun k hk => Function.update_of_ne ?_ ..
    rintro rfl
    apply hx
    rwa [Within, add_sub_self]
  refine h.setMem _ (hkeep _ hloader) fun u thr stage i hu hi => hkeep _ fun hin => ?_
  exact howned u (thr, stage) hu (owned_of_within (h.inside u thr stage hu) hi hin)

variable [DecidableEq T]

@[simp] theorem setObject_self (s : State T) (u : T) (o : Option (UInt64 × Stage)) :
    (s.setObject u o).object u = o := Function.update_self ..

theorem setObject_of_ne {w : T} (h : w ≠ u) (o : Option (UInt64 × Stage)) :
    (s.setObject u o).object w = s.object w := Function.update_of_ne h ..

/-- No register points to the object of a thread that has not started. -/
theorem based_setObject (h : Inv loader limit protector s) (hu : ¬Started (s.life u))
    (o : Option (UInt64 × Stage)) (w : T) :
    Based loader (s.setObject u o) w ((s.setObject u o).life w) := by
  have hkeep : ∀ x, Started (s.life x) → (s.setObject u o).object x = s.object x := by
    intro x hx
    refine setObject_of_ne ?_ o
    rintro rfl
    exact hu hx
  have hb := h.based w
  change Based loader (s.setObject u o) w (s.life w)
  cases hlife : s.life w with
  | absent => trivial
  | loading =>
    rw [hlife] at hb
    exact hb
  | born =>
    rw [hlife] at hb
    obtain ⟨x, hx, hobj⟩ := hb
    exact ⟨x, hx, (hkeep x hx).trans hobj⟩
  | running =>
    rw [hlife] at hb
    exact (hkeep w (.inl hlife)).trans hb
  | gone =>
    rw [hlife] at hb
    exact (hkeep w (.inr hlife)).trans hb

/-- A thread that has not started gets a new object, or none. -/
theorem Inv.setObject (h : Inv loader limit protector s) (hu : ¬Started (s.life u))
    {o : Option (UInt64 × Stage)}
    (hin : ∀ thr stage, o = some (thr, stage) → Inside s.proc.brk thr)
    (hapart : ∀ v thr thr' stage stage', v ≠ u → o = some (thr, stage) →
      s.object v = some (thr', stage') →
      thr.toNat + 576 ≤ thr'.toNat ∨ thr'.toNat + 576 ≤ thr.toNat)
    (hwords : ∀ thr stage i v, o = some (thr, stage) →
      content protector thr stage (s.stored u) i = some v → load64 s.proc.mem (word thr i) = v) :
    Inv loader limit protector (s.setObject u o) where
  brk := h.brk
  inside w thr stage hw := by
    by_cases hwu : w = u
    · subst hwu
      rw [setObject_self] at hw
      exact hin thr stage hw
    · rw [setObject_of_ne hwu] at hw
      exact h.inside w thr stage hw
  apart w w' thr thr' stage stage' hne hw hw' := by
    by_cases hwu : w = u
    · subst hwu
      rw [setObject_self] at hw
      rw [setObject_of_ne hne.symm] at hw'
      exact hapart w' thr thr' stage stage' hne.symm hw hw'
    · rw [setObject_of_ne hwu] at hw
      by_cases hwu' : w' = u
      · subst hwu'
        rw [setObject_self] at hw'
        exact (hapart w thr' thr stage' stage hne hw' hw).symm
      · rw [setObject_of_ne hwu'] at hw'
        exact h.apart w w' thr thr' stage stage' hne hw hw'
  loaded := h.loaded
  words w thr stage i v hw hv := by
    by_cases hwu : w = u
    · subst hwu
      rw [setObject_self] at hw
      exact hwords thr stage i v hw hv
    · rw [setObject_of_ne hwu] at hw
      exact h.words w thr stage i v hw hv
  based := based_setObject h hu o
  owner := h.owner

/-- A store to an object that is being made. -/
theorem inv_store (hl : Loaded loader limit) (h : Inv loader limit protector s)
    (hu : s.object u = some (thr, stage)) (hlife : ¬Started (s.life u)) (i : Nat) (hi : i < 72)
    (x : UInt64) (stage' : Stage)
    (hwords : ∀ j v, content protector thr stage' (s.stored u) j = some v →
      load64 (store64 s.proc.mem (word thr i) x) (word thr j) = v) :
    Inv loader limit protector
      ((s.setMem (store64 s.proc.mem (word thr i) x)).setObject u (some (thr, stage'))) := by
  have hnone : Inv loader limit protector (s.setObject u none) := by
    apply h.setObject hlife
    all_goals
      intros
      contradiction
  have hmem : Inv loader limit protector
      ((s.setObject u none).setMem (store64 s.proc.mem (word thr i) x)) := by
    apply hnone.setMem
    · exact load64_store64_of_apart (loader_apart hl h hu hi)
    · intro w thr' stage'' j hw hj
      have hwu : w ≠ u := by
        rintro rfl
        rw [setObject_self] at hw
        cases hw
      rw [setObject_of_ne hwu] at hw
      exact words_apart h hu hw hi (by omega) (.inl hwu) s.proc.mem x
  have hfull := hmem.setObject (u := u) (o := some (thr, stage')) hlife
    (fun thr' stage'' ho => by
      cases ho
      exact h.inside u thr stage hu)
    (fun w thr₁ thr₂ _ stage₂ hwu ho hw => by
      cases ho
      have hobject : (s.setObject u none).object w = s.object w := setObject_of_ne hwu none
      exact h.apart u w thr thr₂ stage stage₂ hwu.symm hu (hobject.symm.trans hw))
    (fun thr' stage'' j v ho hv => by
      cases ho
      exact hwords j v hv)
  have hstate : ((s.setObject u none).setMem (store64 s.proc.mem (word thr i) x)).setObject u
      (some (thr, stage')) =
      (s.setMem (store64 s.proc.mem (word thr i) x)).setObject u (some (thr, stage')) := by
    simp only [State.setObject, State.setMem, Function.update_idem]
  exact hstate ▸ hfull

theorem setLife_self (s : State T) (t : T) (b : UInt64) (l : Life) :
    (s.setLife t b l).life t = l ∧ (s.setLife t b l).fsBase t = b :=
  ⟨Function.update_self .., Function.update_self ..⟩

theorem setLife_of_ne {w : T} (h : w ≠ t) (b : UInt64) (l : Life) :
    (s.setLife t b l).life w = s.life w ∧ (s.setLife t b l).fsBase w = s.fsBase w :=
  ⟨Function.update_of_ne h .., Function.update_of_ne h ..⟩

/-- A thread goes on with another register. -/
theorem Inv.setLife (h : Inv loader limit protector s) (b : UInt64) {l : Life}
    (hstays : Started (s.life t) → Started l) (hbased : Based loader (s.setLife t b l) t l) :
    Inv loader limit protector (s.setLife t b l) := by
  have hstarted : ∀ x, Started (s.life x) → Started ((s.setLife t b l).life x) := by
    intro x hx
    by_cases hxt : x = t
    · subst hxt
      rw [(setLife_self s x b l).1]
      exact hstays hx
    · rwa [(setLife_of_ne hxt b l).1]
  refine ⟨h.brk, h.inside, h.apart, h.loaded, h.words, ?_, fun w i v hw => ?_⟩
  · intro w
    by_cases hwt : w = t
    · subst hwt
      rwa [(setLife_self s w b l).1]
    · obtain ⟨hlife, hbase⟩ := setLife_of_ne (s := s) hwt b l
      have hb := h.based w
      rw [hlife]
      cases hl : s.life w with
      | absent => trivial
      | loading =>
        rw [hl] at hb
        exact hbase.trans hb
      | born =>
        rw [hl] at hb
        obtain ⟨x, hx, hobj⟩ := hb
        exact ⟨x, hstarted x hx, hbase ▸ hobj⟩
      | running =>
        rw [hl] at hb
        rw [Based, hbase]
        exact hb
      | gone =>
        rw [hl] at hb
        rw [Based, hbase]
        exact hb
  · exact hstarted w (h.owner w i v hw)

theorem stored_self (s : State T) (t : T) (i : Nat) (v : UInt64) :
    (s.setStored t i v).stored t i = some v := by
  simp only [State.setStored, Function.update_self]

theorem stored_of_ne {w : T} {j : Nat} (h : w ≠ t ∨ j ≠ i) (v : UInt64) :
    (s.setStored t i v).stored w j = s.stored w j := by
  by_cases hwt : w = t
  · subst hwt
    have hji := h.resolve_left (not_not_intro rfl)
    simp only [State.setStored, Function.update_self, Function.update_of_ne hji]
  · simp only [State.setStored, Function.update_of_ne hwt]

theorem inv_storeLocal (hl : Loaded loader limit) (h : Inv loader limit protector s)
    (ht : s.life t = .running) (hi : i < 64) (x : UInt64) :
    Inv loader limit protector
      ((s.setMem (store64 s.proc.mem (word (s.fsBase t) i) x)).setStored t i x) where
  brk := h.brk
  inside := h.inside
  apart := h.apart
  loaded := by
    have hb := h.based t
    rw [ht] at hb
    exact (load64_store64_of_apart (loader_apart hl h hb (by omega))).trans h.loaded
  words w thr stage j v hw hv := by
    have hb := h.based t
    rw [ht] at hb
    have hj := index_of_content hv
    have hobj : s.object w = some (thr, stage) := hw
    by_cases hword : w = t ∧ j = i
    · obtain ⟨rfl, rfl⟩ := hword
      rw [hb] at hobj
      cases hobj
      rw [content, if_pos hi, stored_self] at hv
      rw [← Option.some.inj hv]
      exact load64_store64 ..
    · have hstored : (s.setStored t i x).stored w j = s.stored w j :=
        stored_of_ne (not_and_or.mp hword) x
      have hsame : content protector thr stage (s.stored w) j = some v := by
        rw [content, hstored.symm]
        exact hv
      rw [← h.words w thr stage j v hobj hsame]
      exact words_apart h hb hobj (by omega) (by omega) (not_and_or.mp hword) s.proc.mem x
  based := h.based
  owner w j v hw := by
    by_cases hwt : w = t
    · subst hwt
      exact .inl ht
    · exact h.owner w j v ((stored_of_ne (.inl hwt) x).symm.trans hw)

theorem inv_initial (hbrk : brk.toNat ≤ limit.toNat) (main : T) (mem : Memory) :
    Inv loader limit (load64 mem (loader + stackProtector)) (initial main loader brk mem) where
  brk := hbrk
  inside _ _ _ h := by cases h
  apart _ _ _ _ _ _ _ h := by cases h
  loaded := rfl
  words _ _ _ _ _ h := by cases h
  based t := by
    by_cases htm : t = main
    · subst htm
      simp [initial, Based]
    · simp [initial, Based, Function.update_of_ne htm]
  owner _ _ _ h := by cases h

theorem inv_newObject (hl : Loaded loader limit) (h : Inv loader limit protector s)
    (hroom : Room limit s objectSize grant) (hu : ¬Started (s.life u)) :
    Inv loader limit protector (s.newObject u grant) := by
  have hm := inv_malloc hl h hroom
  have hblock := malloc_room hl.limit h.brk hroom.1 hroom.2
  rw [State.newObject]
  generalize malloc objectSize grant s.proc = r at hm hblock ⊢
  rcases hblock with ⟨hp, _, _⟩ | ⟨hp, hb, hle, _⟩
  · simp only [hp, if_true]
    exact hm
  have h8 : metadataSize.toNat = 8 := rfl
  have h512 : tlsSpace.toNat = 512 := rfl
  have h576 : objectSize.toNat = 576 := rfl
  have h0 : (0 : UInt64).toNat = 0 := rfl
  have hlimit := limit.toNat_lt
  have hdata : r.1.toNat = s.proc.brk.toNat + 8 := by
    rw [hp, getData, UInt64.toNat_add, h8]
    omega
  have hne : r.1 ≠ 0 := by
    intro hzero
    have hnat := congrArg UInt64.toNat hzero
    omega
  have hthr : (r.1 + tlsSpace).toNat = s.proc.brk.toNat + 520 := by
    rw [UInt64.toNat_add, hdata, h512]
    omega
  simp only [if_neg hne]
  generalize r.1 + tlsSpace = thr at hthr ⊢
  apply hm.setObject hu
  · rintro _ _ ⟨⟩
    constructor
    · omega
    · change _ ≤ r.2.brk.toNat
      omega
  · rintro v _ thr' _ stage' _ ⟨⟩ hv
    have hin := (h.inside v thr' stage' hv).2
    right
    omega
  · rintro _ _ i v ⟨⟩ hv
    rcases content_cases hv with ⟨_, hv⟩ | ⟨_, hblank, _⟩ | ⟨_, hstage, _⟩
    · exact absurd ((stored_of_not_started h hu i).symm.trans hv) (by simp)
    · exact absurd rfl hblank
    · cases hstage

/-- `thr->self = thr` -/
theorem inv_storeSelf (hl : Loaded loader limit) (h : Inv loader limit protector s)
    (hc : Creates s t u) (hu : s.object u = some (thr, .blank)) : Inv loader limit protector
      ((s.setMem (store64 s.proc.mem thr thr)).setObject u (some (thr, .named))) := by
  have hlife := not_started_of_creates hc
  have hself := word_self (h.inside u thr _ hu)
  have hstore := inv_store hl h hu hlife 64 (by decide) thr .named
  rw [hself] at hstore
  apply hstore
  intro j v hv
  rcases content_cases hv with ⟨_, hv⟩ | ⟨rfl, _, rfl⟩ | ⟨_, hstage, _⟩
  · exact absurd ((stored_of_not_started h hlife j).symm.trans hv) (by simp)
  · rw [hself, load64_store64]
  · cases hstage

/-- The creator's stack protector, which is everybody's. -/
theorem inv_copyProtector (hl : Loaded loader limit) (h : Inv loader limit protector s)
    (hc : Creates s t u) (hu : s.object u = some (thr, .named)) : Inv loader limit protector
      ((s.setMem (store64 s.proc.mem (thr + stackProtector)
        (load64 s.proc.mem (s.fsBase t + stackProtector)))).setObject u
          (some (thr, .complete))) := by
  have hlife := not_started_of_creates hc
  have hprotector := word_protector (h.inside u thr _ hu)
  have hcreator : s.life t ≠ .absent := by
    rcases hc with ⟨ht, _⟩ | ⟨ht, _⟩
    all_goals
      rw [ht]
      decide
  rw [protector_of_life h hcreator]
  have hstore := inv_store hl h hu hlife 69 (by decide) protector .complete
  rw [hprotector] at hstore
  apply hstore
  intro j v hv
  rcases content_cases hv with ⟨_, hv⟩ | ⟨rfl, _, hv⟩ | ⟨rfl, _, rfl⟩
  · exact absurd ((stored_of_not_started h hlife j).symm.trans hv) (by simp)
  · rw [hv, ← hprotector, words_apart h hu hu (by decide) (by decide) (.inr (by decide))]
    exact h.words u thr _ 64 thr hu rfl
  · rw [hprotector, load64_store64]

theorem step_inv (hl : Loaded loader limit) {a : Act T} (h : Inv loader limit protector s)
    (hp : Polite loader limit s a) (hs : step s a = some s') : Inv loader limit protector s' := by
  cases a with
  | malloc size grant =>
    obtain rfl := Option.some.inj hs
    exact inv_malloc hl h hp
  | newObject t u grant =>
    obtain ⟨⟨hc, _⟩, hs⟩ := Option.ite_none_right_eq_some.mp hs
    obtain rfl := Option.some.inj hs
    exact inv_newObject hl h hp (not_started_of_creates hc)
  | storeSelf t u thr =>
    obtain ⟨⟨hc, hu⟩, hs⟩ := Option.ite_none_right_eq_some.mp hs
    obtain rfl := Option.some.inj hs
    exact inv_storeSelf hl h hc hu
  | copyProtector t u thr =>
    obtain ⟨⟨hc, hu⟩, hs⟩ := Option.ite_none_right_eq_some.mp hs
    obtain rfl := Option.some.inj hs
    exact inv_copyProtector hl h hc hu
  | giveUp t u =>
    obtain ⟨⟨_, hu⟩, hs⟩ := Option.ite_none_right_eq_some.mp hs
    obtain rfl := Option.some.inj hs
    apply h.setObject
    · rw [hu]
      rintro (hu | hu) <;> cases hu
    all_goals
      intros
      contradiction
  | clone t u thr =>
    obtain ⟨⟨ht, hu, _⟩, hs⟩ := Option.ite_none_right_eq_some.mp hs
    obtain rfl := Option.some.inj hs
    have hb := h.based t
    rw [ht] at hb
    have hut : t ≠ u := by
      rintro rfl
      rw [ht] at hu
      cases hu
    apply h.setLife
    · rw [hu]
      rintro (hu | hu) <;> cases hu
    · obtain ⟨hlife, _⟩ := setLife_of_ne (s := s) hut (s.fsBase t) .born
      refine ⟨t, ?_, ?_⟩
      · rw [hlife]
        exact .inl ht
      · rw [(setLife_self s u (s.fsBase t) .born).2]
        exact hb
  | setupTls t thr =>
    obtain ⟨⟨_, ht⟩, hs⟩ := Option.ite_none_right_eq_some.mp hs
    obtain rfl := Option.some.inj hs
    apply h.setLife
    · exact fun _ => .inl rfl
    · rw [Based, (setLife_self s t thr .running).2]
      exact ht
  | storeLocal t i v =>
    obtain ⟨⟨ht, hi⟩, hs⟩ := Option.ite_none_right_eq_some.mp hs
    obtain rfl := Option.some.inj hs
    exact inv_storeLocal hl h ht hi v
  | write a b =>
    obtain rfl := Option.some.inj hs
    exact inv_write h hp
  | exit t =>
    obtain ⟨ht, hs⟩ := Option.ite_none_right_eq_some.mp hs
    obtain rfl := Option.some.inj hs
    have hb := h.based t
    rw [ht] at hb
    apply h.setLife
    · exact fun _ => .inr rfl
    · rw [Based, (setLife_self s t (s.fsBase t) .gone).2]
      exact hb

end Steps

section Runs

variable [DecidableEq T]

/-- The memory of a run, from the program loader on. -/
theorem inv_of_run {loader limit brk : UInt64} (hl : Loaded loader limit)
    (hbrk : brk.toNat ≤ limit.toNat) {main : T} {mem : Memory} {acts : List (Act T)} {s : State T}
    (hp : Along step (Polite loader limit) (initial main loader brk mem) acts)
    (h : Runs.exec step (initial main loader brk mem) acts = some s) :
    Inv loader limit (load64 mem (loader + stackProtector)) s :=
  inv_of_exec (fun _ _ _ hs ha hstep => step_inv hl hs ha hstep) (inv_initial hbrk main mem) hp h

/-- In every run: all threads see one stack protector, wherever their registers point. A thread that
runs gets from `thrd_current` the object that has been made for it, and two threads get different
ones. -/
theorem thrd_current_own (loader limit brk : UInt64) (hl : Loaded loader limit)
    (hbrk : brk.toNat ≤ limit.toNat) (main : T) (mem : Memory) (acts : List (Act T)) (s : State T)
    (hp : Along step (Polite loader limit) (initial main loader brk mem) acts)
    (h : Runs.exec step (initial main loader brk mem) acts = some s) :
    (∀ t, s.life t ≠ .absent → load64 s.proc.mem (s.fsBase t + stackProtector) =
      load64 mem (loader + stackProtector)) ∧
    (∀ t u, t ≠ u → s.life t = .running → s.life u = .running → s.fsBase t ≠ s.fsBase u) ∧
    ∀ t, s.life t = .running → s.object t = some (s.fsBase t, .complete) ∧
      ∀ (code : Code) (kernel : Kernel) (m : Machine.State), Placed code m.rip thrdCurrent →
        m.mem = s.proc.mem → m.fsBase = s.fsBase t → ∃ m', Reaches code kernel m m' ∧
          Returned m m' ∧ m'.mem = m.mem ∧ m'.regs .rax = s.fsBase t := by
  have hinv := inv_of_run hl hbrk hp h
  have hobject : ∀ t, s.life t = .running → s.object t = some (s.fsBase t, .complete) := by
    intro t ht
    have hb := hinv.based t
    rwa [ht] at hb
  refine ⟨fun t ht => protector_of_life hinv ht, fun t u hne ht hu hsame => ?_, fun t ht => ?_⟩
  · have hapart := hinv.apart t u _ _ _ _ hne (hobject t ht) (hobject u hu)
    rw [hsame] at hapart
    omega
  · refine ⟨hobject t ht, fun code kernel m hcode hmem hfs => ?_⟩
    obtain ⟨m', hreach, hret, hkeep, hrax⟩ := thrdCurrent_returns kernel hcode
    refine ⟨m', hreach, hret, hkeep, ?_⟩
    have hword := hinv.words t _ .complete 64 (s.fsBase t) (hobject t ht) rfl
    rw [word_self (hinv.inside t _ _ (hobject t ht))] at hword
    rw [hrax, hmem, hfs, hword]

/-- The step for the stack protector is what the machine does in `__copy_stack_protector`. -/
theorem step_copyProtector (s s' : State T) (t u : T) (thr : UInt64)
    (hs : step s (.copyProtector t u thr) = some s') (code : Code) (kernel : Kernel)
    (m : Machine.State) (hcode : Placed code m.rip copyStackProtector) (hmem : m.mem = s.proc.mem)
    (hfs : m.fsBase = s.fsBase t) (hrdi : m.regs .rdi = thr + stackProtector)
    (hslot : Apart (m.regs .rsp) (m.regs .rdi)) :
    ∃ m', Reaches code kernel m m' ∧ Returned m m' ∧ m'.mem = s'.proc.mem := by
  obtain ⟨_, hs⟩ := Option.ite_none_right_eq_some.mp hs
  obtain rfl := Option.some.inj hs
  obtain ⟨m', hreach, hret, hcopy⟩ := copyStackProtector_copies kernel hcode hslot
  refine ⟨m', hreach, hret, hcopy.trans ?_⟩
  rw [hrdi, hmem, hfs]
  rfl

/-- The process starts up, and its first thread creates another one. -/
def twoThreads (t u : Fin 2) : List (Act (Fin 2)) :=
  [.newObject t t true, .storeSelf t t 0x10208, .copyProtector t t 0x10208, .setupTls t 0x10208,
    .storeLocal t 3 7, .newObject t u true, .storeSelf t u 0x10450, .copyProtector t u 0x10450,
    .malloc 0x800000 true, .clone t u 0x10450, .write 0x10500 1, .setupTls u 0x10450,
    .storeLocal u 3 9, .storeLocal t 2 5, .write 0x10501 2]

def loaderMem : Memory := store64 (fun _ => 0) 0x7f0000000028 0xdeadbeef00

theorem thrd_current_own_two : ∃ s : State (Fin 2),
    s.fsBase 0 = 0x10208 ∧ s.fsBase 1 = 0x10450 ∧
    (∀ t, s.life t ≠ .absent → load64 s.proc.mem (s.fsBase t + stackProtector) =
      load64 loaderMem (0x7f0000000000 + stackProtector)) ∧
    (∀ t u, t ≠ u → s.life t = .running → s.life u = .running → s.fsBase t ≠ s.fsBase u) ∧
    ∀ t, s.life t = .running → s.object t = some (s.fsBase t, .complete) ∧
      ∀ (code : Code) (kernel : Kernel) (m : Machine.State), Placed code m.rip thrdCurrent →
        m.mem = s.proc.mem → m.fsBase = s.fsBase t → ∃ m', Reaches code kernel m m' ∧
          Returned m m' ∧ m'.mem = m.mem ∧ m'.regs .rax = s.fsBase t := by
  have hl : Loaded 0x7f0000000000 0x7e0000000000 := ⟨by decide, by decide, by decide⟩
  have hp : Along step (Polite 0x7f0000000000 0x7e0000000000)
      (initial (0 : Fin 2) 0x7f0000000000 0x10000 loaderMem) (twoThreads 0 1) := by decide +kernel
  have hrun : (Runs.exec step (initial (0 : Fin 2) 0x7f0000000000 0x10000 loaderMem)
      (twoThreads 0 1)).map
      (fun s => (s.fsBase 0, s.fsBase 1)) = some (0x10208, 0x10450) := by decide +kernel
  obtain ⟨s, hexec, hs⟩ := Option.map_eq_some_iff.mp hrun
  obtain ⟨h₀, h₁⟩ := Prod.mk.injEq .. ▸ hs
  exact ⟨s, h₀, h₁, thrd_current_own 0x7f0000000000 0x7e0000000000 0x10000 hl (by decide) 0
    loaderMem (twoThreads 0 1) s hp hexec⟩

end Runs

section Locals

variable [DecidableEq T] {s s' : State T} {a : Act T} {t : T} {i : Nat}

/-- Nobody else stores to a variable of a thread. -/
theorem stored_step (hs : step s a = some s') (hother : ∀ v, a ≠ .storeLocal t i v) :
    s'.stored t i = s.stored t i := by
  cases a with
  | malloc size grant =>
    obtain rfl := Option.some.inj hs
    rfl
  | newObject u w grant =>
    obtain ⟨_, hs⟩ := Option.ite_none_right_eq_some.mp hs
    obtain rfl := Option.some.inj hs
    rw [State.newObject]
    generalize malloc objectSize grant s.proc = r
    by_cases hnull : r.1 = 0
    · rw [if_pos hnull]
    · rw [if_neg hnull]
      rfl
  | storeLocal u j v =>
    obtain ⟨_, hs⟩ := Option.ite_none_right_eq_some.mp hs
    obtain rfl := Option.some.inj hs
    apply stored_of_ne
    by_contra hsame
    obtain ⟨rfl, rfl⟩ := not_or.mp hsame |>.imp not_not.mp not_not.mp
    exact hother v rfl
  | write b v =>
    obtain rfl := Option.some.inj hs
    rfl
  | _ =>
    obtain ⟨_, hs⟩ := Option.ite_none_right_eq_some.mp hs
    obtain rfl := Option.some.inj hs
    rfl

theorem stored_of_exec {acts : List (Act T)} (h : Runs.exec step s acts = some s')
    (hother : ∀ v, .storeLocal t i v ∉ acts) : s'.stored t i = s.stored t i := by
  induction acts generalizing s with
  | nil =>
    obtain rfl := Option.some.inj h
    rfl
  | cons a acts ih =>
    rw [exec_cons] at h
    obtain ⟨m, hm, h⟩ := Option.bind_eq_some_iff.mp h
    rw [ih h fun v hv => hother v (List.mem_cons_of_mem a hv)]
    exact stored_step hm fun v hv => hother v (hv ▸ List.mem_cons_self)

/-- A thread-local variable holds what its thread has stored last, whatever the other threads have
stored to the variable of the same name. -/
theorem locals_own (loader limit brk : UInt64) (hl : Loaded loader limit)
    (hbrk : brk.toNat ≤ limit.toNat) (main : T) (mem : Memory) (pre post : List (Act T)) (t : T)
    (i : Nat) (v : UInt64) (s : State T)
    (hp : Along step (Polite loader limit) (initial main loader brk mem)
      (pre ++ .storeLocal t i v :: post))
    (h : Runs.exec step (initial main loader brk mem) (pre ++ .storeLocal t i v :: post) = some s)
    (hlast : ∀ x, .storeLocal t i x ∉ post) :
    load64 s.proc.mem (word (s.fsBase t) i) = v := by
  have hinv := inv_of_run hl hbrk hp h
  rw [exec_append] at h
  obtain ⟨s₁, _, h⟩ := Option.bind_eq_some_iff.mp h
  rw [exec_cons] at h
  obtain ⟨s₂, hstore, h⟩ := Option.bind_eq_some_iff.mp h
  obtain ⟨⟨_, hi⟩, hstore⟩ := Option.ite_none_right_eq_some.mp hstore
  obtain rfl := Option.some.inj hstore
  have hstored : s.stored t i = some v := (stored_of_exec h hlast).trans (stored_self ..)
  have hb := hinv.based t
  have hobject : s.object t = some (s.fsBase t, .complete) := by
    rcases hinv.owner t i v hstored with hlife | hlife
    all_goals
      rw [hlife] at hb
      exact hb
  refine hinv.words t _ .complete i v hobject ?_
  rw [content, if_pos hi, hstored]

theorem locals_own_two : ∃ s : State (Fin 2),
    load64 s.proc.mem (word (s.fsBase 0) 3) = 7 ∧ s.fsBase 0 = 0x10208 := by
  have hl : Loaded 0x7f0000000000 0x7e0000000000 := ⟨by decide, by decide, by decide⟩
  have hp : Along step (Polite 0x7f0000000000 0x7e0000000000)
      (initial (0 : Fin 2) 0x7f0000000000 0x10000 loaderMem) (twoThreads 0 1) := by decide +kernel
  have hrun : (Runs.exec step (initial (0 : Fin 2) 0x7f0000000000 0x10000 loaderMem)
      (twoThreads 0 1)).map
      (fun s => s.fsBase 0) = some 0x10208 := by decide +kernel
  obtain ⟨s, hexec, hs⟩ := Option.map_eq_some_iff.mp hrun
  exact ⟨s, locals_own 0x7f0000000000 0x7e0000000000 0x10000 hl (by decide) 0 loaderMem
    ((twoThreads 0 1).take 4) ((twoThreads 0 1).drop 5) 0 3 7 s hp hexec (by simp [twoThreads]), hs⟩

end Locals

end ThreadPointer
