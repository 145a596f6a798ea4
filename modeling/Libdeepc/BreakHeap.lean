import Mathlib.Tactic.Ring

/-!
# The heap above the break

`malloc` and its relatives, down to the `brk` system call. Addresses and sizes
are 64-bit words: every sum and product wraps as in the source. Memory has a
byte at every address. Which pages are mapped is left out: an access to a page
that is not mapped ends a run early, and nothing is said about it.
-/

namespace BreakHeap

structure Process where
  brk : UInt64
  mem : UInt64 → UInt8
  errno : Int32

def ENOMEM : Int32 := 12

/-- The kernel moves the break where it is asked to, or leaves it. Its answer is the break. -/
def sysBrk (addr : UInt64) (grant : Bool) (s : Process) : UInt64 × Process :=
  if grant then (addr, { s with brk := addr }) else (s.brk, s)

def syscallChkErr (ret : UInt64) (s : Process) : UInt64 × Process :=
  if ret > -4096 then (-1, { s with errno := (-ret.toInt64).toInt32 }) else (ret, s)

def syscall1Brk (addr : UInt64) (grant : Bool) (s : Process) : UInt64 × Process :=
  let (ret, s) := sysBrk addr grant s
  syscallChkErr ret s

/-- `grant` is what the kernel does with the address computed here. -/
def sbrk (increment : Int64) (grant : Bool) (s : Process) : UInt64 × Process :=
  -- no heap ends at address 0: this call only asks where the break is
  let (curBreak, s) := syscall1Brk 0 false s
  if increment = 0 then (curBreak, s)
  else
    let nextBreak := curBreak + increment.toUInt64
    let (actualNextBreak, s) := syscall1Brk nextBreak grant s
    if nextBreak ≠ actualNextBreak then (-1, { s with errno := ENOMEM }) else (curBreak, s)

/-- `sizeof(malloc_metadata)` -/
def metadataSize : UInt64 := 8

def getMeta (ptr : UInt64) : UInt64 := ptr - metadataSize

def getData (header : UInt64) : UInt64 := header + metadataSize

/-- `meta->size = size`, least significant byte first. -/
def storeSize (mem : UInt64 → UInt8) (header size : UInt64) : UInt64 → UInt8 := fun a =>
  if a - header < metadataSize then (size >>> (8 * (a - header))).toUInt8 else mem a

/-- `meta->size` -/
def loadSize (mem : UInt64 → UInt8) (header : UInt64) : UInt64 :=
  (List.range 8).foldr (fun i acc => acc <<< 8 ||| (mem (header + i.toUInt64)).toUInt64) 0

def setByte (mem : UInt64 → UInt8) (p : UInt64) (b : UInt8) : UInt64 → UInt8 :=
  fun a => if a = p then b else mem a

def memset (mem : UInt64 → UInt8) (dest : UInt64) (ch : UInt8) : Nat → UInt64 → UInt8
  | 0 => mem
  | count + 1 => memset (setByte mem dest ch) (dest + 1) ch count

def memcpy (mem : UInt64 → UInt8) (dest src : UInt64) : Nat → UInt64 → UInt8
  | 0 => mem
  | count + 1 => memcpy (setByte mem dest (mem src)) (dest + 1) (src + 1) count

/-- The lock around `sbrk` is left out: the calls come one after another. -/
def malloc (size : UInt64) (grant : Bool) (s : Process) : UInt64 × Process :=
  if size = 0 then (0, s)
  else
    let (ret, s) := sbrk (size + metadataSize).toInt64 grant s
    if ret = -1 then (0, s) else (getData ret, { s with mem := storeSize s.mem ret size })

/-- Nothing is ever given back. -/
def free (_ptr : UInt64) (s : Process) : Process := s

def realloc (ptr newSize : UInt64) (grant : Bool) (s : Process) : UInt64 × Process :=
  let (newPtr, s) := malloc newSize grant s
  if newPtr = 0 then (0, s)
  else if ptr = 0 then (newPtr, s)
  else
    let oldSize := loadSize s.mem (getMeta ptr)
    let minSize := if oldSize < newSize then oldSize else newSize
    (newPtr, free ptr { s with mem := memcpy s.mem newPtr ptr minSize.toNat })

def calloc (num size : UInt64) (grant : Bool) (s : Process) : UInt64 × Process :=
  let sz := num * size
  let (ret, s) := malloc sz grant s
  if ret = 0 then (ret, s)
  else
    -- the source has the fill byte and the count exchanged
    (ret, { s with mem := memset s.mem ret size.toUInt8 0 })

def alignedAlloc (_alignment size : UInt64) (grant : Bool) (s : Process) : UInt64 × Process :=
  malloc size grant s

/-- The error range of the kernel's answers starts above this address. -/
abbrev lastAddress : UInt64 := -4096

section Sbrk

variable {increment : Int64} {grant : Bool} {s : Process}

theorem syscallChkErr_of_le {ret : UInt64} (h : ret ≤ lastAddress) :
    syscallChkErr ret s = (ret, s) := if_neg (UInt64.not_lt.mpr h)

theorem syscallChkErr_of_gt {ret : UInt64} (h : lastAddress < ret) :
    syscallChkErr ret s = (-1, { s with errno := (-ret.toInt64).toInt32 }) := if_pos h

theorem syscallChkErr_eq (ret : UInt64) (s : Process) :
    ∃ e, (syscallChkErr ret s).2 = { s with errno := e } ∧
      ((syscallChkErr ret s).1 = ret ∨ (syscallChkErr ret s).1 = -1) := by
  rw [syscallChkErr]
  split
  · exact ⟨_, rfl, .inr rfl⟩
  · exact ⟨_, rfl, .inl rfl⟩

/-- A kernel that does not move the break makes any increment but 0 fail. -/
theorem sbrk_refused (hne : increment ≠ 0) (s : Process) :
    (sbrk increment false s).1 = -1 ∧ ∃ e, (sbrk increment false s).2 = { s with errno := e } := by
  have hinc : increment.toUInt64 ≠ 0 := fun h => hne (congrArg UInt64.toInt64 h)
  obtain ⟨e, hs, hcur⟩ := syscallChkErr_eq s.brk s
  obtain ⟨e', hs', hnext⟩ := syscallChkErr_eq s.brk { s with errno := e }
  have hmoved : (syscallChkErr s.brk s).1 + increment.toUInt64 ≠
      (syscallChkErr s.brk { s with errno := e }).1 := by
    -- both answers are the same, the break or -1
    have hsame : (syscallChkErr s.brk { s with errno := e }).1 = (syscallChkErr s.brk s).1 := by
      unfold syscallChkErr
      split <;> rfl
    rw [hsame]
    exact fun h => hinc (by simpa using h)
  simp only [sbrk, syscall1Brk, sysBrk, Bool.false_eq_true, if_false, if_neg hne, hs, if_pos hmoved,
    hs']
  exact ⟨trivial, _, rfl⟩

/-- The break is asked for and moved. -/
theorem sbrk_granted (hne : increment ≠ 0) (hbrk : s.brk ≤ lastAddress)
    (hnext : s.brk + increment.toUInt64 ≤ lastAddress) :
    sbrk increment true s = (s.brk, { s with brk := s.brk + increment.toUInt64 }) := by
  simp only [sbrk, syscall1Brk, sysBrk, Bool.false_eq_true, if_false, if_true,
    syscallChkErr_of_le hbrk, if_neg hne, syscallChkErr_of_le hnext, ne_eq, not_true_eq_false]

/-- No increment: the break is returned, whatever the kernel would do. -/
theorem sbrk_zero (hbrk : s.brk ≤ lastAddress) (grant : Bool) : sbrk 0 grant s = (s.brk, s) := by
  simp only [sbrk, syscall1Brk, sysBrk, Bool.false_eq_true, if_false, if_true,
    syscallChkErr_of_le hbrk]

theorem sbrk_mem (increment : Int64) (grant : Bool) (s : Process) :
    (sbrk increment grant s).2.mem = s.mem := by
  have hcall : ∀ addr grant s, (syscall1Brk addr grant s).2.mem = s.mem := by
    intro addr grant s
    obtain ⟨e, hs, _⟩ := syscallChkErr_eq (sysBrk addr grant s).1 (sysBrk addr grant s).2
    rw [syscall1Brk, hs]
    cases grant <;> rfl
  simp only [sbrk]
  split
  · exact hcall 0 false s
  · split <;> exact (hcall _ grant _).trans (hcall 0 false s)

/-- Where the break is not a valid address, its value reads as an error. -/
theorem sbrk_of_gt (hbrk : lastAddress < s.brk) (increment : Int64) (grant : Bool) :
    (sbrk increment grant s).1 = -1 := by
  have hcur : (syscall1Brk 0 false s).1 = -1 := by
    simp only [syscall1Brk, sysBrk, Bool.false_eq_true, if_false, syscallChkErr_of_gt hbrk]
  simp only [sbrk, hcur]
  split
  · rfl
  · split <;> rfl

/-- An increment that the kernel grants, to an address in its error range: reported as an error,
unless the address is the report itself. -/
theorem sbrk_to_error (hne : increment ≠ 0) (hbrk : s.brk ≤ lastAddress)
    (hnext : lastAddress < s.brk + increment.toUInt64) :
    sbrk increment true s =
      if s.brk + increment.toUInt64 = -1 then (s.brk, { s with brk := -1, errno := 1 })
      else (-1, { s with brk := s.brk + increment.toUInt64, errno := ENOMEM }) := by
  simp only [sbrk, syscall1Brk, sysBrk, Bool.false_eq_true, if_false, if_true,
    syscallChkErr_of_le hbrk, if_neg hne, syscallChkErr_of_gt hnext]
  by_cases hlast : s.brk + increment.toUInt64 = -1
  · rw [if_pos hlast, if_neg (not_not_intro hlast), hlast]
    rfl
  · rw [if_neg hlast, if_pos hlast]

end Sbrk

section Malloc

variable {size : UInt64} {grant : Bool} {s : Process}

theorem toInt64_eq_zero {a : UInt64} : a.toInt64 = 0 ↔ a = 0 :=
  ⟨fun h => congrArg Int64.toUInt64 h, fun h => congrArg UInt64.toInt64 h⟩

theorem ne_neg_one_of_le (h : s.brk ≤ lastAddress) : s.brk ≠ -1 := by
  rintro heq
  rw [heq] at h
  exact absurd h (by decide)

/-- `NULL`: the error number at most has changed. -/
theorem malloc_null (h : size = 0 ∨ grant = false ∧ size + metadataSize ≠ 0) :
    (malloc size grant s).1 = 0 ∧ ∃ e, (malloc size grant s).2 = { s with errno := e } := by
  by_cases hsize : size = 0
  · rw [malloc, if_pos hsize]
    exact ⟨rfl, s.errno, rfl⟩
  · obtain ⟨rfl, hne⟩ := h.resolve_left hsize
    obtain ⟨hret, e, hs⟩ := sbrk_refused (mt toInt64_eq_zero.mp hne) s
    rw [malloc, if_neg hsize]
    simp only [hret, hs, if_true]
    exact ⟨trivial, e, rfl⟩

/-- A block: it starts at the old break, header first. -/
theorem malloc_block {brk : UInt64} (hsize : size ≠ 0) (hbrk : s.brk ≤ lastAddress)
    (h : sbrk (size + metadataSize).toInt64 grant s = (s.brk, { s with brk := brk })) :
    malloc size grant s =
      (getData s.brk, { s with brk := brk, mem := storeSize s.mem s.brk size }) := by
  simp only [malloc, if_neg hsize, h, if_neg (ne_neg_one_of_le hbrk)]

theorem malloc_granted (hsize : size ≠ 0) (hne : size + metadataSize ≠ 0)
    (hbrk : s.brk ≤ lastAddress) (hnext : s.brk + (size + metadataSize) ≤ lastAddress) :
    malloc size true s = (getData s.brk, { s with
      brk := s.brk + (size + metadataSize)
      mem := storeSize s.mem s.brk size }) :=
  malloc_block hsize hbrk (sbrk_granted (mt toInt64_eq_zero.mp hne) hbrk hnext)

/-- The header makes the increment 0: a block above the break, which stays. -/
theorem malloc_wrapped (hzero : size + metadataSize = 0) (hbrk : s.brk ≤ lastAddress)
    (grant : Bool) : malloc size grant s =
      (getData s.brk, { s with mem := storeSize s.mem s.brk size }) := by
  have hsize : size ≠ 0 := by
    rintro rfl
    exact absurd hzero (by decide)
  refine malloc_block hsize hbrk ?_
  rw [toInt64_eq_zero.mpr hzero]
  exact sbrk_zero hbrk grant

/-- The break is a valid address, and it stays where it is or the kernel moves it. An address in the
error range is reported as an error, and -1 is also what that report looks like. -/
def FindsMemory (size : UInt64) (grant : Bool) (s : Process) : Prop :=
  size ≠ 0 ∧ s.brk ≤ lastAddress ∧ (size + metadataSize = 0 ∨ grant = true ∧
    (s.brk + (size + metadataSize) ≤ lastAddress ∨ s.brk + (size + metadataSize) = -1))

instance : Decidable (FindsMemory size grant s) := inferInstanceAs (Decidable (_ ∧ _ ∧ (_ ∨ _)))

/-- The block is what the break leaves behind, its header in front. -/
theorem malloc_of_finds (h : FindsMemory size grant s) : ∃ e, malloc size grant s =
    (getData s.brk, ⟨s.brk + (size + metadataSize), storeSize s.mem s.brk size, e⟩) := by
  obtain ⟨hsize, hbrk, hfinds⟩ := h
  by_cases hzero : size + metadataSize = 0
  · refine ⟨s.errno, ?_⟩
    rw [malloc_wrapped hzero hbrk, hzero, UInt64.add_zero]
  · obtain ⟨rfl, hnext | hnext⟩ := hfinds.resolve_left hzero
    · exact ⟨s.errno, malloc_granted hsize hzero hbrk hnext⟩
    · have hinc : (size + metadataSize).toInt64 ≠ 0 := mt toInt64_eq_zero.mp hzero
      have hlast : lastAddress < s.brk + (size + metadataSize).toInt64.toUInt64 := by
        rw [UInt64.toUInt64_toInt64, hnext]
        decide
      have hsbrk := sbrk_to_error hinc hbrk hlast
      rw [UInt64.toUInt64_toInt64, if_pos hnext] at hsbrk
      exact ⟨1, by simp only [malloc, if_neg hsize, hsbrk, if_neg (ne_neg_one_of_le hbrk), hnext]⟩

theorem malloc_of_not_finds (h : ¬FindsMemory size grant s) :
    (malloc size grant s).1 = 0 ∧ (malloc size grant s).2.mem = s.mem := by
  by_cases hsize : size = 0
  · rw [malloc, if_pos hsize]
    exact ⟨rfl, rfl⟩
  have hret : (sbrk (size + metadataSize).toInt64 grant s).1 = -1 := by
    by_cases hbrk : s.brk ≤ lastAddress
    · have hzero : size + metadataSize ≠ 0 := fun hzero => h ⟨hsize, hbrk, .inl hzero⟩
      have hinc : (size + metadataSize).toInt64 ≠ 0 := mt toInt64_eq_zero.mp hzero
      cases grant with
      | false => exact (sbrk_refused hinc s).1
      | true =>
        have hnext : lastAddress < s.brk + (size + metadataSize) := UInt64.not_le.mp fun hle =>
          h ⟨hsize, hbrk, .inr ⟨rfl, .inl hle⟩⟩
        have hlast : s.brk + (size + metadataSize) ≠ -1 := fun heq =>
          h ⟨hsize, hbrk, .inr ⟨rfl, .inr heq⟩⟩
        have hsbrk := sbrk_to_error hinc hbrk (by rwa [UInt64.toUInt64_toInt64])
        rw [UInt64.toUInt64_toInt64, if_neg hlast] at hsbrk
        rw [hsbrk]
    · exact sbrk_of_gt (UInt64.not_le.mp hbrk) _ grant
  rw [malloc, if_neg hsize]
  simp only [hret, if_true]
  exact ⟨trivial, sbrk_mem _ grant s⟩

end Malloc

inductive Call
  | malloc (size : UInt64)
  | calloc (num size : UInt64)
  | realloc (ptr newSize : UInt64)
  | alignedAlloc (alignment size : UInt64)
  | free (ptr : UInt64)

namespace Call

/-- What the call returns, with `NULL` for `free`, and the process after it. -/
def perform (grant : Bool) (s : Process) : Call → UInt64 × Process
  | malloc size => BreakHeap.malloc size grant s
  | calloc num size => BreakHeap.calloc num size grant s
  | realloc ptr newSize => BreakHeap.realloc ptr newSize grant s
  | alignedAlloc alignment size => BreakHeap.alignedAlloc alignment size grant s
  | free ptr => (0, BreakHeap.free ptr s)

/-- The bytes asked for. -/
def requested : Call → Nat
  | malloc size => size.toNat
  | calloc num size => num.toNat * size.toNat
  | realloc _ newSize => newSize.toNat
  | alignedAlloc _ size => size.toNat
  | free _ => 0

/-- The bytes `malloc` is asked for. -/
def size : Call → UInt64
  | malloc size => size
  | calloc num size => num * size
  | realloc _ newSize => newSize
  | alignedAlloc _ size => size
  | free _ => 0

theorem toNat_size (c : Call) : c.size.toNat = c.requested % 2 ^ 64 := by
  cases c with
  | calloc num size => exact UInt64.toNat_mul num size
  | malloc size => exact (Nat.mod_eq_of_lt size.toNat_lt).symm
  | realloc ptr newSize => exact (Nat.mod_eq_of_lt newSize.toNat_lt).symm
  | alignedAlloc alignment size => exact (Nat.mod_eq_of_lt size.toNat_lt).symm
  | free ptr => rfl

/-- Every call is its `malloc`, and writes to memory when that found a block. -/
theorem perform_eq_malloc (grant : Bool) (s : Process) (c : Call) :
    (c.perform grant s).1 = (BreakHeap.malloc c.size grant s).1 ∧
      (c.perform grant s).2.brk = (BreakHeap.malloc c.size grant s).2.brk ∧
      ((BreakHeap.malloc c.size grant s).1 = 0 →
        (c.perform grant s).2 = (BreakHeap.malloc c.size grant s).2) := by
  cases c with
  | malloc size => exact ⟨rfl, rfl, fun _ => rfl⟩
  | alignedAlloc alignment size => exact ⟨rfl, rfl, fun _ => rfl⟩
  | free ptr => exact ⟨rfl, rfl, fun _ => rfl⟩
  | calloc num size =>
    simp only [perform, BreakHeap.calloc, Call.size]
    by_cases hnull : (BreakHeap.malloc (num * size) grant s).1 = 0
    · rw [if_pos hnull]
      exact ⟨rfl, rfl, fun _ => rfl⟩
    · rw [if_neg hnull]
      exact ⟨rfl, rfl, fun h => absurd h hnull⟩
  | realloc ptr newSize =>
    simp only [perform, BreakHeap.realloc, Call.size]
    by_cases hnull : (BreakHeap.malloc newSize grant s).1 = 0
    · rw [if_pos hnull]
      exact ⟨hnull.symm, rfl, fun _ => rfl⟩
    by_cases hptr : ptr = 0
    · rw [if_neg hnull, if_pos hptr]
      exact ⟨rfl, rfl, fun _ => rfl⟩
    · rw [if_neg hnull, if_neg hptr]
      exact ⟨rfl, rfl, fun h => absurd h hnull⟩

end Call

end BreakHeap
