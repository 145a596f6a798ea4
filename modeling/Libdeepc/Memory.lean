import Mathlib.Data.List.Basic
import Mathlib.Tactic.Ring

/-!
# Byte memory

An address that cannot be accessed has no byte. A store succeeds when all its
bytes can be accessed and changes those only. Integers are stored little-endian
in two's complement.
-/

namespace Memory

abbrev Mem := Nat → Option UInt8

def load (mem : Mem) (p : Nat) : Nat → Option (List UInt8)
  | 0 => some []
  | n + 1 => do
    let b ← mem p
    let bs ← load mem (p + 1) n
    some (b :: bs)

def store (mem : Mem) (p : Nat) (bs : List UInt8) : Option Mem :=
  if ∀ i, i < bs.length → (mem (p + i)).isSome then
    some fun a => if p ≤ a ∧ a < p + bs.length then bs[a - p]? else mem a
  else none

/-- What can be read from `p` on, up to the end of the address space at most. -/
def readable (mem : Mem) : Nat → Nat → List UInt8
  | 0, _ => []
  | fuel + 1, p => match mem p with
    | none => []
    | some b => b :: readable mem fuel (p + 1)

def bytesAt (mem : Mem) (p : Nat) : List UInt8 := readable mem (2 ^ 64 - p) p

/-- The `n` bytes of an integer, least significant first. -/
def leBytes : Nat → Int → List UInt8
  | 0, _ => []
  | n + 1, v => UInt8.ofNat (v % 256).toNat :: leBytes n (v / 256)

@[simp] theorem length_leBytes (n : Nat) (v : Int) : (leBytes n v).length = n := by
  induction n generalizing v with
  | zero => rfl
  | succ n ih => simp [leBytes, ih]

theorem leBytes_add (m n : Nat) (v : Int) :
    leBytes (m + n) v = leBytes m v ++ leBytes n (v / 256 ^ m) := by
  induction m generalizing v with
  | zero => simp [leBytes]
  | succ m ih =>
    have hdiv : v / 256 / 256 ^ m = v / 256 ^ (m + 1) := by
      rw [Int.ediv_ediv_of_nonneg (by decide), pow_succ']
    rw [Nat.add_right_comm, leBytes, ih, hdiv]
    rfl

/-- Only the residue that fits is stored. -/
theorem leBytes_emod {m n : Nat} (h : m ≤ n) (v : Int) : leBytes m (v % 256 ^ n) = leBytes m v := by
  induction m generalizing n v with
  | zero => rfl
  | succ m ih =>
    obtain ⟨n, rfl⟩ := Nat.exists_eq_succ_of_ne_zero (by omega : n ≠ 0)
    have hlow : v % 256 ^ (n + 1) % 256 = v % 256 :=
      Int.emod_emod_of_dvd v (Dvd.intro_left _ (pow_succ 256 n).symm)
    have hhigh : v % 256 ^ (n + 1) / 256 = v / 256 % 256 ^ n := by
      have hq : v / 256 / 256 ^ n = v / (256 * 256 ^ n) := Int.ediv_ediv_of_nonneg (by decide)
      rw [pow_succ', Int.emod_def, Int.emod_def (v / 256), hq]
      generalize v / (256 * 256 ^ n) = q
      have hsub : v - 256 * 256 ^ n * q = v + 256 * -(256 ^ n * q) := by ring
      rw [hsub, Int.add_mul_ediv_left _ _ (by decide)]
      ring
    rw [leBytes, leBytes, hlow, hhigh, ih (by omega)]

theorem load_congr {mem mem' : Mem} {p n : Nat} (h : ∀ i, i < n → mem (p + i) = mem' (p + i)) :
    load mem p n = load mem' p n := by
  induction n generalizing p with
  | zero => rfl
  | succ n ih =>
    have h0 := h 0 (Nat.succ_pos n)
    rw [Nat.add_zero] at h0
    rw [load, load, h0, ih fun i hi => ?_]
    have := h (i + 1) (by omega)
    rwa [← Nat.add_assoc, Nat.add_right_comm] at this

theorem load_add (mem : Mem) (p m n : Nat) :
    load mem p (m + n) = (load mem p m).bind fun bs =>
      (load mem (p + m) n).map fun cs => bs ++ cs := by
  induction m generalizing p with
  | zero => simp [load]
  | succ m ih =>
    have hp : p + 1 + m = p + (m + 1) := by omega
    rw [Nat.add_right_comm, load, load, ih, hp]
    cases mem p with
    | none => rfl
    | some b => cases load mem (p + 1) m <;> cases load mem (p + (m + 1)) n <;> rfl

theorem isSome_of_load {mem : Mem} {p n : Nat} (h : (load mem p n).isSome) {i : Nat}
    (hi : i < n) : (mem (p + i)).isSome := by
  induction n generalizing p i with
  | zero => omega
  | succ n ih =>
    obtain ⟨bs, hbs⟩ := Option.isSome_iff_exists.mp h
    obtain ⟨b, hb, hrest⟩ := Option.bind_eq_some_iff.mp hbs
    obtain ⟨cs, hcs, _⟩ := Option.bind_eq_some_iff.mp hrest
    cases i with
    | zero => exact Option.isSome_iff_exists.mpr ⟨b, hb⟩
    | succ i =>
      have hsucc := ih (by rw [hcs]; rfl) (by omega : i < n)
      rwa [Nat.add_assoc, Nat.add_comm 1 i] at hsucc

/-- What can be loaded can be stored over. -/
theorem exists_store_of_load {mem : Mem} {p n : Nat} (h : (load mem p n).isSome)
    {bs : List UInt8} (hle : bs.length ≤ n) : ∃ mem', store mem p bs = some mem' :=
  ⟨_, if_pos fun _ hi => isSome_of_load h (lt_of_lt_of_le hi hle)⟩

section Store

variable {mem mem' : Mem} {p : Nat} {bs : List UInt8}

theorem store_apply (h : store mem p bs = some mem') (a : Nat) :
    mem' a = if p ≤ a ∧ a < p + bs.length then bs[a - p]? else mem a := by
  rw [store] at h
  split at h
  · rw [← Option.some.inj h]
  · cases h

/-- What was stored is what is loaded. -/
theorem load_store_self (h : store mem p bs = some mem') :
    load mem' p bs.length = some bs := by
  have hall : ∀ cs q, (∀ i, i < cs.length → mem' (q + i) = cs[i]?) →
      load mem' q cs.length = some cs := by
    intro cs
    induction cs with
    | nil => intros; rfl
    | cons c cs ih =>
      intro q hq
      have h0 := hq 0 (Nat.succ_pos _)
      have hrest := ih (q + 1) fun i hi => by
        have := hq (i + 1) (by simpa using hi)
        rw [← Nat.add_assoc, Nat.add_right_comm] at this
        simpa using this
      simp only [Nat.add_zero, List.getElem?_cons_zero] at h0
      simp only [List.length_cons, load, h0, hrest, Option.bind_eq_bind, Option.bind_some]
  refine hall bs p fun i hi => ?_
  rw [store_apply h, if_pos (by omega), Nat.add_sub_cancel_left]

/-- What lies behind the stored bytes stays. -/
theorem load_store_after (h : store mem p bs = some mem') (n : Nat) :
    load mem' (p + bs.length) n = load mem (p + bs.length) n :=
  load_congr fun i _ => by rw [store_apply h, if_neg (by omega)]

end Store

end Memory
