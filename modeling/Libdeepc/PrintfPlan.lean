import Libdeepc.PrintfWrite

/-!
# The writes of a directive

A function that emits text makes a list of writes, and each of them is followed
by a test of `rc` or by one more write without a test. For every write function
that stays stopped, the functions of `printf.c` run such a list.
-/

namespace PrintfPlan

open CString PrintfWrite

/-- One write; `follow` is what is written next even when this one has stopped the output. -/
structure Chunk where
  bytes : List UInt8
  follow : List UInt8

/-- The usual case: `rc` is tested behind the write. -/
def tested (bytes : List UInt8) : Chunk := ⟨bytes, []⟩

def bytesOf (cs : List Chunk) : List UInt8 := cs.flatMap Chunk.bytes

@[simp] theorem bytesOf_nil : bytesOf [] = [] := rfl

@[simp] theorem bytesOf_cons (c : Chunk) (cs : List Chunk) :
    bytesOf (c :: cs) = c.bytes ++ bytesOf cs := List.flatMap_cons

@[simp] theorem bytesOf_append (cs ds : List Chunk) :
    bytesOf (cs ++ ds) = bytesOf cs ++ bytesOf ds := List.flatMap_append

@[simp] theorem bytes_tested (bytes : List UInt8) : (tested bytes).bytes = bytes := rfl

theorem bytesOf_map (follow : List UInt8) (bs : List (List UInt8)) :
    bytesOf (bs.map (⟨·, follow⟩)) = bs.flatten := by
  induction bs with
  | nil => rfl
  | cons b bs ih => simp [ih]

@[simp] theorem bytesOf_tested (bs : List (List UInt8)) : bytesOf (bs.map tested) = bs.flatten :=
  bytesOf_map [] bs

/-- The rounds of `vprintf_padding`. -/
def blocks (p : UInt8) : Nat → Nat → List (List UInt8)
  | 0, _ => []
  | fuel + 1, len =>
    if len > 0 then
      let l := if len ≥ 64 then 64 else len
      List.replicate l p :: blocks p fuel (len - l)
    else []

def padding (p : UInt8) (len : Nat) : List (List UInt8) := blocks p len len

theorem blocks_flatten (p : UInt8) {fuel len : Nat} (h : len ≤ fuel) :
    (blocks p fuel len).flatten = List.replicate len p := by
  induction fuel generalizing len with
  | zero =>
    obtain rfl := Nat.le_zero.mp h
    rfl
  | succ fuel ih =>
    by_cases hpos : len > 0
    · have hround : ∀ l, 0 < l → l ≤ len →
          (List.replicate l p :: blocks p fuel (len - l)).flatten = List.replicate len p := by
        intro l hl hle
        rw [List.flatten_cons, ih (by omega), ← List.replicate_add, Nat.add_sub_of_le hle]
      rw [blocks, if_pos hpos]
      exact hround _ (by split <;> omega) (by split <;> omega)
    · obtain rfl : len = 0 := by omega
      rfl

@[simp] theorem padding_flatten (p : UInt8) (len : Nat) :
    (padding p len).flatten = List.replicate len p := blocks_flatten p le_rfl

/-- `%c` and `%s` in a width: the padding in front is not tested before the text, nor the text
before the padding behind it. -/
def paddedText (minus : Bool) (len : Nat) (bytes : List UInt8) : List Chunk :=
  let spaces := padding (byte ' ') len
  if minus then ⟨bytes, spaces.headD []⟩ :: spaces.map tested
  else spaces.map (⟨·, bytes⟩) ++ [tested bytes]

theorem bytesOf_paddedText (minus : Bool) (len : Nat) (bytes : List UInt8) :
    bytesOf (paddedText minus len bytes) =
      if minus then bytes ++ List.replicate len (byte ' ')
      else List.replicate len (byte ' ') ++ bytes := by
  have hspaces := bytesOf_map bytes (padding (byte ' ') len)
  cases minus with
  | true => simp [paddedText]
  | false => simpa [paddedText] using hspaces

section Run

variable {σ : Type} {write : WriteFn σ}

def runChunks (write : WriteFn σ) : List Chunk → Info σ → Option (Info σ)
  | [], info => some info
  | c :: cs, info => do
    let info ← write info c.bytes
    if info.rc = .ok then runChunks write cs info else write info c.follow

/-- Nothing is written of nothing, and a stopped output stays stopped. -/
structure StaysStopped (write : WriteFn σ) : Prop where
  empty : ∀ info, write info [] = some info
  stopped : ∀ info buf info', info.rc ≠ .ok → write info buf = some info' → info'.rc ≠ .ok

theorem staysStopped_fd (kernel : Kernel) : StaysStopped (writeFd kernel) where
  empty info := rfl
  stopped info buf info' hrc h := by
    simp only [writeFd] at h
    split at h
    · obtain rfl := Option.some.inj h
      exact hrc
    · split at h
      · obtain rfl := Option.some.inj h
        exact VprintRet.noConfusion
      · split at h
        · obtain rfl := Option.some.inj h
          exact VprintRet.noConfusion
        · obtain rfl := Option.some.inj h
          exact hrc

variable (hw : StaysStopped write) {info : Info σ}
include hw

theorem runChunks_tested (bytes : List UInt8) :
    runChunks write [tested bytes] info = write info bytes := by
  simp only [runChunks, tested, hw.empty, ite_self, Option.bind_eq_bind]
  exact Option.bind_fun_some (write info bytes)

/-- A list of writes goes on where the one in front of it has not stopped. -/
theorem runChunks_append (hok : info.rc = .ok) (cs ds : List Chunk) :
    runChunks write (cs ++ ds) info = (runChunks write cs info).bind fun i =>
      if i.rc = .ok then runChunks write ds i else some i := by
  induction cs generalizing info with
  | nil => simp [runChunks, hok]
  | cons c cs ih =>
    simp only [List.cons_append, runChunks, Option.bind_eq_bind, Option.bind_assoc]
    apply Option.bind_congr
    intro i _
    by_cases hi : i.rc = .ok
    · rw [if_pos hi, if_pos hi, ih hi]
    · rw [if_neg hi, if_neg hi]
      cases hfollow : write i c.follow with
      | none => rfl
      | some j => simp [hw.stopped i c.follow j hi hfollow]

theorem checked_chunks {c : Prop} [Decidable c] {act k : Info σ → Option (Info σ)}
    {cs ds : List Chunk} (hok : info.rc = .ok) (hact : act info = runChunks write cs info)
    (hk : ∀ i, i.rc = .ok → k i = runChunks write ds i) :
    checked c info act k = runChunks write ((if c then cs else []) ++ ds) info := by
  by_cases hc : c
  · rw [checked, if_pos hc, if_pos hc, runChunks_append hw hok, hact]
    apply Option.bind_congr
    intro i _
    by_cases hi : i.rc = .ok
    · rw [if_pos hi, if_pos hi, hk i hi]
    · rw [if_neg hi, if_neg hi]
  · rw [checked, if_neg hc, if_neg hc, hk info hok, List.nil_append]

theorem paddingLoop_chunks (hok : info.rc = .ok) (p : UInt8) (fuel len : Nat) :
    paddingLoop write p fuel len info =
      runChunks write ((blocks p fuel len).map tested) info := by
  induction fuel generalizing len info with
  | zero => rfl
  | succ fuel ih =>
    by_cases hpos : len > 0
    · simp only [paddingLoop, blocks, hpos, if_true, List.map_cons, runChunks, bytes_tested,
        Option.bind_eq_bind]
      apply Option.bind_congr
      intro i _
      by_cases hi : i.rc = .ok
      · simp only [hi, ne_eq, not_true, if_false, if_true, ih hi]
      · simp only [hi, ne_eq, not_false_eq_true, if_true, if_false, tested, hw.empty]
    · simp only [paddingLoop, blocks, hpos, if_false, List.map_nil, runChunks]

theorem vprintfPadding_chunks (hok : info.rc = .ok) (p : UInt8) (len : Nat) :
    vprintfPadding write info p len = runChunks write ((padding p len).map tested) info := by
  rw [vprintfPadding, Int.toNat_natCast, padding]
  split
  · next h =>
    obtain rfl : len = 0 := by omega
    rfl
  · exact paddingLoop_chunks hw hok p len len

/-- A stopped output gets one more block. -/
theorem vprintfPadding_stopped (hrc : info.rc ≠ .ok) (p : UInt8) (len : Nat) :
    vprintfPadding write info p len = write info ((padding p len).headD []) := by
  rw [vprintfPadding, Int.toNat_natCast, padding]
  cases len with
  | zero => exact (hw.empty info).symm
  | succ len =>
    have hpos : len + 1 > 0 := Nat.succ_pos len
    have hnot : ¬((len + 1 : Nat) : Int) ≤ 0 := by omega
    simp only [hnot, if_false, paddingLoop, blocks, hpos, if_true, List.headD_cons,
      Option.bind_eq_bind]
    cases hblock : write info (List.replicate (if len + 1 ≥ 64 then 64 else len + 1) p) with
    | none => rfl
    | some i => simp [hw.stopped _ _ i hrc hblock]

theorem runChunks_follow (bs : List (List UInt8)) (bytes : List UInt8) :
    (runChunks write (bs.map tested) info).bind (write · bytes) =
      runChunks write (bs.map (⟨·, bytes⟩) ++ [tested bytes]) info := by
  induction bs generalizing info with
  | nil => exact (runChunks_tested hw bytes).symm
  | cons b bs ih =>
    simp only [List.map_cons, List.cons_append, runChunks, bytes_tested, Option.bind_eq_bind,
      Option.bind_assoc]
    apply Option.bind_congr
    intro i _
    by_cases hi : i.rc = .ok
    · rw [if_pos hi, if_pos hi, ih]
    · rw [if_neg hi, if_neg hi]
      simp only [tested, hw.empty, Option.bind_some]

theorem padded_chunks (hok : info.rc = .ok) (spec : VprintSpec) (len : Nat)
    (bytes : List UInt8) :
    padded write info spec len bytes =
      runChunks write (paddedText spec.flagMinus len bytes) info := by
  cases hminus : spec.flagMinus with
  | true =>
    simp only [padded, paddedText, hminus, if_true, runChunks, Option.bind_eq_bind,
      Option.bind_some]
    apply Option.bind_congr
    intro i _
    by_cases hi : i.rc = .ok
    · rw [if_pos hi, vprintfPadding_chunks hw hi]
    · rw [if_neg hi, vprintfPadding_stopped hw hi]
  | false =>
    simp only [padded, paddedText, hminus, Bool.false_eq_true, if_false, Option.bind_eq_bind,
      vprintfPadding_chunks hw hok, ← runChunks_follow hw]
    apply Option.bind_congr
    intro i _
    exact Option.bind_fun_some (write i bytes)

end Run

end PrintfPlan
