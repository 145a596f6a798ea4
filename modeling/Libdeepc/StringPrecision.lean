import Libdeepc.FormatMeaning

/-!
# The bytes `%s` reads

`vprintf_conv_s` on a pointer, with the indexes of the bytes it reads. The length
comes from `strlen`, which looks for the NUL, and is cut to the precision afterwards.
-/

namespace StringPrecision

open CString MachineInt Memory PrintfWrite PrintfSink IntRendering FormatMeaning

variable {σ : Type}

/-- The loop of `strlen`, with the indexes it reads. -/
def strlenLoop (mem : Mem) (str : Nat) : Nat → Nat → Option (Nat × List Nat)
  | 0, _ => none
  | fuel + 1, len => do
    let c ← mem (str + len)
    if c = 0 then some (len, [len])
    else (strlenLoop mem str fuel (len + 1)).map fun r => (r.1, len :: r.2)

/-- A string ends before the address space does. -/
def strlenAt (mem : Mem) (str : Nat) : Option (Nat × List Nat) :=
  strlenLoop mem str (2 ^ 64 - str) 0

/-- The bytes written are read as well. -/
def vprintfConvSAt (write : WriteFn σ) (info : Info σ) (spec : VprintSpec) (mem : Mem)
    (str : Nat) : Option (Info σ × List Nat) :=
  if str = 0 then (vprintfConvS write info spec none).map fun info => (info, [])
  else do
    let (strLen, reads) ← strlenAt mem str
    let len := if spec.precisionSet ∧ spec.precision ≥ 0 ∧ toSize spec.precision < strLen then
      toSize spec.precision else strLen
    let bytes ← load mem str len
    let hasPadding := spec.widthSet ∧ spec.width ≥ 0 ∧ toSize spec.width > len
    let info ← (if hasPadding then padded write info spec (toSigned 32 (spec.width - len)) bytes
      else write info bytes)
    some (info, reads ++ List.range len)

section Strings

variable {mem : Mem} {str fuel len n : Nat} {bs : List UInt8}

theorem le_length_of_strlen {s : List UInt8} (h : strlen s = some n) : n ≤ s.length := by
  induction s generalizing n with
  | nil => cases h
  | cons c s ih =>
    rw [strlen] at h
    split at h
    · rw [← Option.some.inj h]
      exact Nat.zero_le _
    · obtain ⟨m, hm, rfl⟩ := Option.map_eq_some_iff.mp h
      exact Nat.succ_le_succ (ih hm)

theorem load_readable (h : n ≤ (readable mem fuel str).length) :
    load mem str n = some ((readable mem fuel str).take n) := by
  induction fuel generalizing str n with
  | zero =>
    obtain rfl := Nat.le_zero.mp h
    rfl
  | succ fuel ih =>
    cases n with
    | zero => rfl
    | succ n =>
      cases hb : mem str with
      | none => simp [readable, hb] at h
      | some b =>
        simp only [readable, hb, List.length_cons, Nat.add_le_add_iff_right] at h
        simp [load, readable, hb, ih h]

theorem readable_of_load (hload : load mem str bs.length = some bs) (hfuel : bs.length ≤ fuel) :
    ∃ rest, readable mem fuel str = bs ++ rest := by
  induction bs generalizing str fuel with
  | nil => exact ⟨_, rfl⟩
  | cons b bs ih =>
    obtain ⟨fuel, rfl⟩ := Nat.exists_eq_succ_of_ne_zero (by simp at hfuel; omega : fuel ≠ 0)
    obtain ⟨c, hc, hload⟩ := Option.bind_eq_some_iff.mp hload
    obtain ⟨cs, hcs, heq⟩ := Option.bind_eq_some_iff.mp hload
    obtain ⟨rfl, rfl⟩ := List.cons.inj (Option.some.inj heq)
    obtain ⟨rest, hrest⟩ := ih hcs (by simpa using hfuel)
    exact ⟨rest, by rw [readable, hc, hrest, List.cons_append]⟩

theorem getElem?_of_load (hload : load mem str bs.length = some bs) {i : Nat}
    (hi : i < bs.length) : mem (str + i) = bs[i]? := by
  induction bs generalizing str i with
  | nil => exact absurd hi (Nat.not_lt_zero i)
  | cons b bs ih =>
    obtain ⟨c, hc, hload⟩ := Option.bind_eq_some_iff.mp hload
    obtain ⟨cs, hcs, heq⟩ := Option.bind_eq_some_iff.mp hload
    obtain ⟨rfl, rfl⟩ := List.cons.inj (Option.some.inj heq)
    cases i with
    | zero => exact hc
    | succ i =>
      rw [List.getElem?_cons_succ, ← ih hcs (by simpa using hi)]
      congr 1
      omega

/-- It counts as `strlen` does. -/
theorem strlenLoop_fst (mem : Mem) (str fuel len : Nat) :
    (strlenLoop mem str fuel len).map Prod.fst =
      (strlen (readable mem fuel (str + len))).map (· + len) := by
  induction fuel generalizing len with
  | zero => rfl
  | succ fuel ih =>
    cases hc : mem (str + len) with
    | none => simp [strlenLoop, readable, strlen, hc]
    | some c =>
      by_cases h0 : c = 0
      · simp [strlenLoop, readable, strlen, hc, h0]
      · have hrec := @ih (len + 1)
        rw [← Nat.add_assoc] at hrec
        simp only [strlenLoop, readable, strlen, hc, h0, if_false, Option.bind_eq_bind,
          Option.bind_some, Option.map_map]
        calc (strlenLoop mem str fuel (len + 1)).map Prod.fst
            = (strlen (readable mem fuel (str + len + 1))).map (· + (len + 1)) := hrec
          _ = _ := by
            congr 1
            funext k
            simp only [Function.comp_apply]
            omega

/-- It reads up to the NUL and the NUL itself, no byte twice. -/
theorem strlenLoop_reads {r : Nat × List Nat} (h : strlenLoop mem str fuel len = some r) :
    len ≤ r.1 ∧ mem (str + r.1) = some 0 ∧ (∀ i, len ≤ i → i < r.1 → mem (str + i) ≠ some 0) ∧
      r.2 = List.range' len (r.1 + 1 - len) := by
  induction fuel generalizing len r with
  | zero => cases h
  | succ fuel ih =>
    obtain ⟨c, hc, h⟩ := Option.bind_eq_some_iff.mp h
    by_cases h0 : c = 0
    · rw [if_pos h0] at h
      obtain rfl := Option.some.inj h
      refine ⟨Nat.le_refl len, h0 ▸ hc, fun i hlo hhi => absurd hhi (Nat.not_lt.mpr hlo), ?_⟩
      simp
    · rw [if_neg h0] at h
      obtain ⟨r', hr', rfl⟩ := Option.map_eq_some_iff.mp h
      obtain ⟨hle, hnul, hbefore, hreads⟩ := ih hr'
      refine ⟨by omega, hnul, fun i hlo hhi => ?_, ?_⟩
      · rcases Nat.lt_or_eq_of_le hlo with hlt | rfl
        · exact hbefore i hlt hhi
        · rw [hc]
          exact fun heq => h0 (Option.some.inj heq)
      · have hcount : r'.1 + 1 - len = (r'.1 + 1 - (len + 1)) + 1 := by omega
        rw [hcount, List.range'_succ, ← hreads]

end Strings

section Conversion

variable {write : WriteFn σ} {info : Info σ} {spec : VprintSpec} {mem : Mem} {str : Nat}

/-- Where the reads are not looked at, it is the conversion on the bytes at the pointer. -/
theorem vprintfConvSAt_fst (write : WriteFn σ) (info : Info σ) (spec : VprintSpec) (mem : Mem)
    (str : Nat) : (vprintfConvSAt write info spec mem str).map Prod.fst =
    vprintfConvS write info spec (if str = 0 then none else some (bytesAt mem str)) := by
  by_cases hstr : str = 0
  · rw [vprintfConvSAt, if_pos hstr, if_pos hstr, Option.map_map]
    exact Option.map_id'
  have hlen := strlenLoop_fst mem str (2 ^ 64 - str) 0
  rw [Nat.add_zero] at hlen
  simp only [vprintfConvSAt, if_neg hstr, vprintfConvS, Option.getD_some, Option.bind_eq_bind]
  rw [bytesAt]
  cases hs : strlenAt mem str with
  | none =>
    rw [strlenAt] at hs
    rw [hs] at hlen
    have hnone : strlen (readable mem (2 ^ 64 - str) str) = none := by simpa using hlen.symm
    rw [hnone]
    rfl
  | some r =>
    rw [strlenAt] at hs
    rw [hs] at hlen
    have hsome : strlen (readable mem (2 ^ 64 - str) str) = some r.1 := by simpa using hlen.symm
    rw [hsome]
    simp only [Option.bind_some]
    have hlong := le_length_of_strlen hsome
    rw [@load_readable mem str (2 ^ 64 - str) _ (by split <;> omega)]
    simp only [Option.bind_some, Option.map_bind]
    split <;> simp

/-- The reads are those of `strlen`, and then bytes before the NUL. -/
theorem vprintfConvSAt_reads (hstr : str ≠ 0) {r : Info σ × List Nat}
    (h : vprintfConvSAt write info spec mem str = some r) :
    ∃ n, mem (str + n) = some 0 ∧ (∀ i, i < n → mem (str + i) ≠ some 0) ∧ n ∈ r.2 ∧
      ∀ i ∈ r.2, i ≤ n := by
  rw [vprintfConvSAt, if_neg hstr] at h
  obtain ⟨⟨n, reads⟩, hs, h⟩ := Option.bind_eq_some_iff.mp h
  obtain ⟨_, hnul, hbefore, hreads⟩ := strlenLoop_reads hs
  simp only at hnul hbefore hreads h
  obtain ⟨bytes, _, h⟩ := Option.bind_eq_some_iff.mp h
  obtain ⟨info', _, h⟩ := Option.bind_eq_some_iff.mp h
  rw [← Option.some.inj h, hreads]
  refine ⟨n, hnul, fun i hi => hbefore i (Nat.zero_le i) hi, ?_, ?_⟩
  · simp
  · intro i hi
    rcases List.mem_append.mp hi with hi | hi
    · rw [List.mem_range'_1] at hi
      omega
    · have hlt := List.mem_range.mp hi
      split at hlt <;> omega

variable {out : σ → List UInt8}

/-- What `%s` may read and has to emit when its precision is the number of the bytes `bs`. -/
structure KeepsPrecision (out : σ → List UInt8) (info : Info σ) (spec : VprintSpec)
    (bs : List UInt8) (r : Info σ × List Nat) : Prop where
  below : ∀ i ∈ r.2, i < bs.length
  untilNul : ∀ i ∈ r.2, 0 ∉ bs.take i
  emits : out r.1.sink = out info.sink ++ place (layout spec) false [] (text bs)

theorem vprintfConvSAt_emits (hwrite : NeverFails write out) (hs : Ranged spec)
    (hset : spec.precisionSet = true) (hstr : str ≠ 0) {bs : List UInt8}
    (hlen : bs.length = spec.precision.toNat) (hload : load mem str bs.length = some bs)
    (hfit : str + bs.length ≤ 2 ^ 64) (hok : info.rc = .ok) (hnul : 0 ∈ bs) :
    ∃ r, vprintfConvSAt write info spec mem str = some r ∧
      out r.1.sink = out info.sink ++ place (layout spec) false [] (text bs) := by
  obtain ⟨rest, hrest⟩ := readable_of_load hload (by omega : bs.length ≤ 2 ^ 64 - str)
  obtain ⟨behind, hbs⟩ := exists_eq_text_append (s := bs) hnul
  have htext : text (bytesAt mem str) = text bs := by
    rw [bytesAt, hrest, hbs, List.append_assoc, List.cons_append,
      text_append_zero (zero_notMem_text bs), text_append_zero (zero_notMem_text bs)]
  have hterm : Terminated (bytesAt mem str) := by
    rw [bytesAt, hrest]
    exact List.mem_append_left _ hnul
  have hrender : renderString (layout spec) (text bs) =
      place (layout spec) false [] (text bs) := by
    have hshort : (text bs).length ≤ spec.precision.toNat := by
      rw [← hlen]
      exact (List.takeWhile_sublist _).length_le
    simp [renderString, layout, hset, List.take_of_length_le hshort]
  obtain ⟨info', hrun, _, hout⟩ := exists_of_comm info
    (vprintfConvS_comm hwrite.transfers spec (some (bytesAt mem str)))
    fun i hi => vprintfConvS_list hs (hi.trans hok) hterm
  rw [htext, hrender] at hout
  have hfst := vprintfConvSAt_fst write info spec mem str
  rw [if_neg hstr, show vprintfConvS write info spec _ = some info' from hrun] at hfst
  obtain ⟨r, hr, rfl⟩ := Option.map_eq_some_iff.mp hfst
  exact ⟨r, hr, hout⟩

/-- `%s` keeps to its precision exactly where a NUL comes before the precision does. -/
theorem vprintfConvS_precision_iff {σ : Type} (write : WriteFn σ) (out : σ → List UInt8)
    (hwrite : NeverFails write out) (spec : VprintSpec) (hs : Ranged spec)
    (hset : spec.precisionSet = true) (mem : Mem) (str : Nat) (hstr : str ≠ 0) (bs : List UInt8)
    (hlen : bs.length = spec.precision.toNat) (hload : load mem str bs.length = some bs)
    (hfit : str + bs.length ≤ 2 ^ 64) (info : Info σ) (hok : info.rc = .ok) :
    (∃ r, vprintfConvSAt write info spec mem str = some r ∧
      KeepsPrecision out info spec bs r) ↔ 0 ∈ bs := by
  constructor
  · rintro ⟨r, hr, hkeeps⟩
    obtain ⟨n, hnul, _, hread, _⟩ := vprintfConvSAt_reads hstr hr
    have hlt := hkeeps.below n hread
    rw [getElem?_of_load hload hlt] at hnul
    exact List.mem_of_getElem? hnul
  · intro hnul
    obtain ⟨r, hr, hemits⟩ :=
      vprintfConvSAt_emits hwrite hs hset hstr hlen hload hfit hok hnul
    obtain ⟨n, _, hbefore, _, hreads⟩ := vprintfConvSAt_reads hstr hr
    -- the first NUL of the memory is the first of `bs`
    have hn : n < bs.length := by
      obtain ⟨i, hi⟩ := List.mem_iff_getElem?.mp hnul
      have hlt := (List.getElem?_eq_some_iff.mp hi).1
      by_contra hge
      exact hbefore i (by omega) ((getElem?_of_load hload hlt).trans hi)
    refine ⟨r, hr, ⟨fun i hi => (hreads i hi).trans_lt hn, fun i hi hmem => ?_, hemits⟩⟩
    obtain ⟨j, hj, hbj⟩ := List.mem_take_iff_getElem.mp hmem
    have hin := hreads i hi
    refine hbefore j (by omega) ((getElem?_of_load hload (by omega)).trans ?_)
    rw [List.getElem?_eq_getElem (by omega), hbj]

/-- `%.3s`. -/
def threeChars : VprintSpec :=
  { zeroSpec with precisionSet := true, precision := 3, conv := .s }

/-- An object of a few bytes at 8. -/
def objectAt8 (bytes : List UInt8) : Mem := fun a => if a < 8 then none else bytes[a - 8]?

/-- Three characters and no NUL behind them: `strlen` leaves the array. -/
theorem threeChars_fault :
    load (objectAt8 [97, 98, 99]) 8 3 = some [97, 98, 99] ∧
      ¬∃ r, vprintfConvSAt (writeFd completeWrites) ⟨0, .ok, 0, ⟨[]⟩⟩ threeChars
          (objectAt8 [97, 98, 99]) 8 = some r ∧
        KeepsPrecision (fun s => s.calls.flatten) ⟨0, .ok, 0, ⟨[]⟩⟩ threeChars [97, 98, 99] r := by
  refine ⟨by decide, ?_⟩
  rintro ⟨r, hr, _⟩
  have hnone : vprintfConvSAt (writeFd completeWrites) ⟨0, .ok, 0, ⟨[]⟩⟩ threeChars
      (objectAt8 [97, 98, 99]) 8 = none := rfl
  rw [hnone] at hr
  cases hr

theorem vprintfConvS_precision_two : ∃ r,
    vprintfConvSAt (writeFd completeWrites) ⟨0, .ok, 0, ⟨[]⟩⟩ threeChars
        (objectAt8 [97, 98, 0]) 8 = some r ∧
      KeepsPrecision (fun s => s.calls.flatten) ⟨0, .ok, 0, ⟨[]⟩⟩ threeChars [97, 98, 0] r := by
  have hs : Ranged threeChars :=
    ⟨fun h => absurd h (by decide), fun _ => by decide⟩
  exact (vprintfConvS_precision_iff (writeFd completeWrites) _ neverFails_fd threeChars hs rfl
    (objectAt8 [97, 98, 0]) 8 (by decide) [97, 98, 0] rfl (by decide) (by decide) _ rfl).mpr
    (by decide)

end Conversion

end StringPrecision
