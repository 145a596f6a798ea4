import Libdeepc.FileStreams
import Libdeepc.Runs

/-!
# Lines from a stream

What one call of `fgets` takes from the answers to come is a line: it ends behind a
newline, when the buffer is full, at the end of the stream or with an error. The code
takes exactly this, and writes it into the buffer with a NUL behind it.
-/

namespace LineReading

open ByteMemory FileStreams StringFunctions

section Lines

inductive Received
  | byte (b : UInt8)
  | ended
  | failed
  deriving DecidableEq

/-- What a read of one byte gets. -/
def receive (answer : Option (List UInt8)) : Received :=
  match answer with
  | none => .failed
  | some [] => .ended
  | some (b :: _) => .byte b

/-- The bytes one after the other, and then the end for good. -/
def deliver (bs : List UInt8) : Reads := fun n => some bs[n]?.toList

inductive Stop
  | done
  | ended
  | failed
  deriving DecidableEq

structure Taken where
  line : List UInt8
  stop : Stop
  reads : Reads

/-- A line of at most `n` characters. -/
def takeLine : Nat → Reads → Taken
  | 0, reads => ⟨[], .done, reads⟩
  | n + 1, reads => match receive reads.head with
    | .failed => ⟨[], .failed, reads.tail⟩
    | .ended => ⟨[], .ended, reads.tail⟩
    | .byte b =>
      if b = 10 then ⟨[b], .done, reads.tail⟩
      else
        let t := takeLine n reads.tail
        { t with line := b :: t.line }

variable {n : Nat} {reads : Reads}

theorem takeLine_failed (h : receive reads.head = .failed) (n : Nat) :
    takeLine (n + 1) reads = ⟨[], .failed, reads.tail⟩ := by
  simp only [takeLine, h]

theorem takeLine_ended (h : receive reads.head = .ended) (n : Nat) :
    takeLine (n + 1) reads = ⟨[], .ended, reads.tail⟩ := by
  simp only [takeLine, h]

theorem takeLine_newline (h : receive reads.head = .byte 10) (n : Nat) :
    takeLine (n + 1) reads = ⟨[10], .done, reads.tail⟩ := by
  simp only [takeLine, h, if_true]

theorem takeLine_byte {b : UInt8} (h : receive reads.head = .byte b) (hb : b ≠ 10) (n : Nat) :
    takeLine (n + 1) reads =
      { takeLine n reads.tail with line := b :: (takeLine n reads.tail).line } := by
  simp only [takeLine, h, if_neg hb]

theorem length_takeLine (n : Nat) (reads : Reads) : (takeLine n reads).line.length ≤ n := by
  fun_induction takeLine n reads with
  | case1 reads => exact Nat.le_refl 0
  | case2 n reads h => exact Nat.zero_le _
  | case3 n reads h => exact Nat.zero_le _
  | case4 n reads h => exact Nat.succ_le_succ (Nat.zero_le _)
  | case5 n reads b h hb t ih => exact Nat.succ_le_succ ih

/-- A newline ends a line. -/
theorem newline_takeLine (n : Nat) (reads : Reads) : 10 ∉ (takeLine n reads).line.dropLast := by
  fun_induction takeLine n reads with
  | case5 n reads b h hb t ih =>
    intro hmem
    cases hline : t.line with
    | nil =>
      rw [hline] at hmem
      cases hmem
    | cons c cs =>
      rw [hline] at ih
      simp only [hline, List.dropLast_cons_cons, List.mem_cons] at hmem
      exact hmem.elim (fun heq => hb heq.symm) ih
  | _ => exact List.not_mem_nil

/-- A line that leaves room in the buffer has met a newline, the end or an error. -/
theorem short_takeLine {n : Nat} {reads : Reads} (hdone : (takeLine n reads).stop = .done)
    (hshort : (takeLine n reads).line.length < n) : (takeLine n reads).line.getLast? = some 10 := by
  fun_induction takeLine n reads with
  | case1 reads => exact absurd hshort (Nat.not_lt_zero _)
  | case2 n reads h => cases hdone
  | case3 n reads h => cases hdone
  | case4 n reads h => rfl
  | case5 n reads b h hb t ih =>
    have hlast := ih hdone (Nat.lt_of_succ_lt_succ hshort)
    cases hline : t.line with
    | nil =>
      rw [hline] at hlast
      cases hlast
    | cons c cs =>
      rw [hline] at hlast
      simp only [List.getLast?_cons_cons, hlast]

end Lines

section Loop

variable {mem : Mem} {str : UInt64} {stream : File}

/-- No flag is set. -/
def Clear (stream : File) : Prop := stream.eof = 0 ∧ stream.err = 0

instance (stream : File) : Decidable (Clear stream) := inferInstanceAs (Decidable (_ ∧ _))

/-- The stream behind a line. -/
def flagged (stream : File) : Stop → File
  | .done => stream
  | .ended => { stream with eof := 1 }
  | .failed => { stream with err := 1 }

/-- The buffer behind a line: a NUL ends it, or after an error stands in front. -/
def written (mem : Mem) (str : UInt64) (line : List UInt8) : Stop → Mem
  | .failed => Function.update (patch mem str line) str (some 0)
  | _ => patch mem str (line ++ [0])

theorem fgetc_clear (h : Clear stream) (reads : Reads) :
    fgetc stream reads = match receive reads.head with
      | .failed => ⟨EOF, { stream with err := 1 }, reads.tail⟩
      | .ended => ⟨EOF, { stream with eof := 1 }, reads.tail⟩
      | .byte b => ⟨b.toNat, stream, reads.tail⟩ := by
  have hflags : ¬(stream.eof ≠ 0 ∨ stream.err ≠ 0) := by
    rw [not_or, not_not, not_not]
    exact h
  have hsizes : ¬((1 : UInt64) = 0 ∨ (1 : UInt64) = 0) := by decide
  have hone : atMost ((1 : UInt64) * 1) = 1 := by decide
  simp only [fgetc, fread, if_neg hflags, if_neg hsizes, FileStreams.read, hone]
  cases reads.head with
  | none => rfl
  | some bs =>
    cases bs with
    | nil => rfl
    | cons b bs => rfl

theorem put_front (hacc : (mem str).isSome) (line : List UInt8) :
    put (patch mem str line) str 0 = some (written mem str line .failed) := by
  obtain ⟨b, hb⟩ := Option.isSome_iff_exists.mp (isSome_patch str line hacc)
  rw [put, hb]
  rfl

/-- The loop of `fgets` takes a line. -/
theorem fgetsLoop_eq (hclear : Clear stream) (line : List UInt8) (reads : Reads) {n fuel : Nat}
    (hacc : Accessible mem str (line.length + n + 1)) (hlen : line.length + n < 2 ^ 64 - 1)
    (hfuel : n < fuel) :
    fgetsLoop str (str + .ofNat (line.length + n)) fuel (patch mem str line)
        (str + .ofNat line.length) line stream reads =
      some ⟨if (takeLine n reads).stop = .failed then 0 else str,
        written mem str (line ++ (takeLine n reads).line) (takeLine n reads).stop,
        line ++ (takeLine n reads).line, flagged stream (takeLine n reads).stop,
        (takeLine n reads).reads⟩ := by
  have herr : ferror stream = false := decide_eq_false (not_not.mpr hclear.2)
  have hfront : (mem str).isSome := by
    have h0 := hacc 0 (Nat.succ_pos _)
    rwa [add_ofNat_zero] at h0
  induction n generalizing line reads fuel with
  | zero =>
    obtain ⟨fuel, rfl⟩ := Nat.exists_eq_succ_of_ne_zero (Nat.ne_of_gt hfuel)
    rw [fgetsLoop, Nat.add_zero, if_pos rfl,
      put_patch mem str line 0 (by omega) (hacc _ (by omega))]
    simp only [takeLine, List.append_nil]
    rfl
  | succ n ih =>
    obtain ⟨fuel, rfl⟩ := Nat.exists_eq_succ_of_ne_zero (Nat.ne_of_gt (Nat.zero_lt_of_lt hfuel))
    have hne : str + .ofNat line.length ≠ str + .ofNat (line.length + (n + 1)) := by
      intro h
      exact absurd (add_ofNat_inj (by omega) (by omega) h) (by omega)
    have hput : ∀ b, put (patch mem str line) (str + .ofNat line.length) b =
        some (patch mem str (line ++ [b])) := fun b =>
      put_patch mem str line b (by omega) (hacc _ (by omega))
    have hsnoc : ∀ b : UInt8, (line ++ [b]).length = line.length + 1 := fun b =>
      List.length_append
    rw [fgetsLoop, if_neg hne, fgetc_clear hclear]
    cases h : receive reads.head with
    | failed =>
      have hset : ferror { stream with err := 1 } = true := rfl
      simp only [hset, if_true, put_front hfront, takeLine_failed h, List.append_nil]
      rfl
    | ended =>
      have hunset : ferror { stream with eof := 1 } = false := herr
      simp only [hunset, Bool.false_eq_true, if_false, if_true, hput, takeLine_ended h,
        List.append_nil]
      rfl
    | byte b =>
      have hchar : (b.toNat : Int) ≠ EOF := by
        rw [EOF]
        omega
      have hback : (b.toNat : Int).toNat.toUInt8 = b := UInt8.ofNat_toNat
      have hnext : str + .ofNat line.length + 1 = str + .ofNat (line ++ [b]).length := by
        rw [hsnoc, add_ofNat_succ]
      simp only [herr, Bool.false_eq_true, if_false, if_neg hchar, hback, hput, Option.bind_some,
        hnext]
      by_cases hb : b = 10
      · have hend := put_patch mem str (line ++ [b]) 0 (by rw [hsnoc]; omega)
          (hacc _ (by rw [hsnoc]; omega))
        rw [if_pos hb, hend, takeLine_newline (hb ▸ h), hb]
        rfl
      · have hlen' : line.length + (n + 1) = (line ++ [b]).length + n := by
          rw [hsnoc]
          omega
        have hrest := ih (line ++ [b]) reads.tail (by rwa [← hlen']) (by omega)
          (Nat.lt_of_succ_lt_succ hfuel)
        rw [if_neg hb, hlen', hrest, takeLine_byte h hb, List.append_assoc]
        rfl

end Loop

section Calls

variable {mem : Mem} {str : UInt64} {count : Int32} {stream : File} {reads : Reads}
  {line : List UInt8} {stop : Stop} {n : Nat}

/-- What a call takes: nothing when a flag is set. -/
def taken (n : Nat) (stream : File) (reads : Reads) : Taken :=
  if ferror stream then ⟨[], .failed, reads⟩
  else if feof stream then ⟨[], .ended, reads⟩
  else takeLine n reads

/-- Flags that are set stay as they are. -/
def streamAfter (stream : File) (stop : Stop) : File :=
  if ferror stream ∨ feof stream then stream else flagged stream stop

/-- The characters that go into the buffer; one place is for the NUL. -/
def room (count : Int32) : Nat := count.toInt.toNat - 1

/-- A call fails at once, ends at once or reads. -/
theorem taken_cases (n : Nat) (stream : File) (reads : Reads) :
    (ferror stream = true ∧ taken n stream reads = ⟨[], .failed, reads⟩ ∧
      ∀ stop, streamAfter stream stop = stream) ∨
    (ferror stream = false ∧ feof stream = true ∧ taken n stream reads = ⟨[], .ended, reads⟩ ∧
      ∀ stop, streamAfter stream stop = stream) ∨
    (ferror stream = false ∧ feof stream = false ∧ taken n stream reads = takeLine n reads ∧
      ∀ stop, streamAfter stream stop = flagged stream stop) := by
  cases herr : ferror stream with
  | true => exact .inl ⟨rfl, if_pos herr, fun _ => if_pos (.inl herr)⟩
  | false =>
    cases heof : feof stream with
    | true =>
      refine .inr (.inl ⟨rfl, rfl, ?_, fun _ => if_pos (.inr heof)⟩)
      simp only [taken, herr, heof, Bool.false_eq_true, if_false, if_true]
    | false =>
      refine .inr (.inr ⟨rfl, rfl, ?_, fun _ => ?_⟩)
      · simp only [taken, herr, heof, Bool.false_eq_true, if_false]
      · simp only [streamAfter, herr, heof, Bool.false_eq_true, or_self, if_false]

theorem clear_of_flags (herr : ferror stream = false) (heof : feof stream = false) :
    Clear stream :=
  ⟨not_not.mp (of_decide_eq_false heof), not_not.mp (of_decide_eq_false herr)⟩

/-- A call of `fgets` with a buffer takes a line and puts it there. -/
theorem fgets_eq (hcount : 1 ≤ count.toInt) (hacc : Accessible mem str count.toInt.toNat)
    (stream : File) (reads : Reads) : fgets mem str count stream reads =
      some ⟨if (taken (room count) stream reads).stop = .failed then 0 else str,
        written mem str (taken (room count) stream reads).line
          (taken (room count) stream reads).stop,
        (taken (room count) stream reads).line,
        streamAfter stream (taken (room count) stream reads).stop,
        (taken (room count) stream reads).reads⟩ := by
  have hlt := count.toInt_lt
  have hroom : room count + 1 = count.toInt.toNat := by
    rw [room]
    omega
  have hneg : ¬count < 0 := by
    rw [Int32.lt_iff_toInt_lt]
    change ¬count.toInt < 0
    omega
  have hfront : (mem str).isSome := by
    have h0 := hacc 0 (by omega)
    rwa [add_ofNat_zero] at h0
  rw [fgets, if_neg hneg]
  rcases taken_cases (room count) stream reads with
    ⟨herr, htaken, hafter⟩ | ⟨herr, heof, htaken, hafter⟩ | ⟨herr, heof, htaken, hafter⟩
  · have hput := put_front hfront []
    rw [patch_nil] at hput
    simp only [herr, if_true, hput, htaken, hafter]
    rfl
  · have hput := put_patch mem str [] 0 (by decide) (by rwa [List.length_nil, add_ofNat_zero])
    rw [List.length_nil, add_ofNat_zero, patch_nil] at hput
    simp only [herr, heof, Bool.false_eq_true, if_false, if_true, hput, htaken, hafter]
    rfl
  · have hend : str + .ofInt count.toInt - 1 = str + .ofNat (room count) := by
      have hofInt : UInt64.ofInt count.toInt = .ofNat (room count + 1) := by
        rw [UInt64.ofInt, hroom]
        congr 1
        omega
      rw [hofInt, add_ofNat_succ, UInt64.add_sub_cancel]
    have hfuel : room count < rounds := by
      rw [rounds]
      omega
    have hloop := fgetsLoop_eq (clear_of_flags herr heof) [] reads
      (by rwa [List.length_nil, Nat.zero_add, hroom]) (by rw [List.length_nil]; omega) hfuel
    rw [List.length_nil, Nat.zero_add, add_ofNat_zero, patch_nil, List.nil_append] at hloop
    simp only [herr, heof, Bool.false_eq_true, if_false, hend, hloop, htaken, hafter]

theorem length_taken (n : Nat) (stream : File) (reads : Reads) :
    (taken n stream reads).line.length ≤ n := by
  rcases taken_cases n stream reads with
    ⟨_, htaken, _⟩ | ⟨_, _, htaken, _⟩ | ⟨_, _, htaken, _⟩
  · rw [htaken]
    exact Nat.zero_le n
  · rw [htaken]
    exact Nat.zero_le n
  · rw [htaken]
    exact length_takeLine n reads

theorem newline_taken (n : Nat) (stream : File) (reads : Reads) :
    10 ∉ (taken n stream reads).line.dropLast := by
  rcases taken_cases n stream reads with
    ⟨_, htaken, _⟩ | ⟨_, _, htaken, _⟩ | ⟨_, _, htaken, _⟩
  · rw [htaken]
    exact List.not_mem_nil
  · rw [htaken]
    exact List.not_mem_nil
  · rw [htaken]
    exact newline_takeLine n reads

/-- A line that leaves room in the buffer ends in a newline unless the flags say why. -/
theorem short_taken (hfailed : (taken n stream reads).stop ≠ .failed)
    (hshort : (taken n stream reads).line.length < n) :
    (taken n stream reads).line.getLast? = some 10 ∨
      feof (streamAfter stream (taken n stream reads).stop) = true := by
  rcases taken_cases n stream reads with
    ⟨_, htaken, _⟩ | ⟨_, heof, htaken, hafter⟩ | ⟨_, _, htaken, hafter⟩
  · rw [htaken] at hfailed
    exact absurd rfl hfailed
  · rw [hafter]
    exact .inr heof
  · rw [hafter]
    rw [htaken] at hfailed hshort ⊢
    cases hstop : (takeLine n reads).stop with
    | done => exact .inl (short_takeLine hstop hshort)
    | ended => exact .inr rfl
    | failed => exact absurd hstop hfailed

/-- The error flag is set behind a call just when the call has failed. -/
theorem ferror_streamAfter (n : Nat) (stream : File) (reads : Reads) :
    ferror (streamAfter stream (taken n stream reads).stop) = true ↔
      (taken n stream reads).stop = .failed := by
  rcases taken_cases n stream reads with
    ⟨herr, htaken, hafter⟩ | ⟨herr, _, htaken, hafter⟩ | ⟨herr, _, htaken, hafter⟩
  · rw [hafter, htaken]
    exact iff_of_true herr rfl
  · rw [hafter, htaken]
    exact iff_of_false (Bool.eq_false_iff.mp herr) nofun
  · rw [hafter, htaken]
    cases (takeLine n reads).stop with
    | done => exact iff_of_false (Bool.eq_false_iff.mp herr) nofun
    | ended => exact iff_of_false (Bool.eq_false_iff.mp herr) nofun
    | failed => exact iff_of_true rfl rfl

/-- So is the end flag, when the error flag is not. -/
theorem feof_streamAfter (hfailed : (taken n stream reads).stop ≠ .failed) :
    feof (streamAfter stream (taken n stream reads).stop) = true ↔
      (taken n stream reads).stop = .ended := by
  rcases taken_cases n stream reads with
    ⟨_, htaken, _⟩ | ⟨_, heof, htaken, hafter⟩ | ⟨_, heof, htaken, hafter⟩
  · rw [htaken] at hfailed
    exact absurd rfl hfailed
  · rw [hafter, htaken]
    exact iff_of_true heof rfl
  · rw [hafter]
    rw [htaken] at hfailed ⊢
    cases hstop : (takeLine n reads).stop with
    | done => exact iff_of_false (Bool.eq_false_iff.mp heof) nofun
    | ended => exact iff_of_true rfl rfl
    | failed => exact absurd hstop hfailed

/-- Nothing is written outside the buffer. -/
theorem written_outside (hline : line.length ≤ n) {a : UInt64}
    (ha : ∀ i, i < n + 1 → a ≠ str + .ofNat i) : written mem str line stop a = mem a := by
  have hpatch : ∀ bs : List UInt8, bs.length ≤ n + 1 → patch mem str bs a = mem a := fun bs hbs =>
    patch_outside fun i hi => ha i (by omega)
  have hlast : (line ++ [(0 : UInt8)]).length ≤ n + 1 := by
    rw [List.length_append]
    exact Nat.succ_le_succ hline
  cases stop with
  | done => exact hpatch _ hlast
  | ended => exact hpatch _ hlast
  | failed =>
    have hne : a ≠ str := by
      have h0 := ha 0 (Nat.succ_pos n)
      rwa [add_ofNat_zero] at h0
    exact (Function.update_of_ne hne ..).trans (hpatch _ (by omega))

/-- Whatever is read, `fgets` keeps to the bytes of its buffer, of which there are none when the
count is not positive, and reads no more characters than fit. -/
def InBounds (str : UInt64) (count : Int32) (stream : File) (reads : Reads) : Prop :=
  ∀ mem, Accessible mem str count.toInt.toNat →
    ∃ c, fgets mem str count stream reads = some c ∧
      (∀ a, (∀ i, i < count.toInt.toNat → a ≠ str + .ofNat i) → c.mem a = mem a) ∧
      c.line.length ≤ count.toInt.toNat - 1

/-- Without a buffer, a count of 0 makes every branch write. -/
theorem fgets_zero (str : UInt64) (stream : File) (reads : Reads) :
    fgets (fun _ => none) str 0 stream reads = none := by
  have hput : ∀ (p : UInt64) (b : UInt8), put (fun _ => none) p b = none := fun _ _ => rfl
  have hneg : ¬(0 : Int32) < 0 := by decide
  have hend : str ≠ str + UInt64.ofInt (0 : Int32).toInt - 1 := by
    intro h
    have hzero : (UInt64.ofInt (0 : Int32).toInt : UInt64) = 0 := rfl
    rw [hzero, UInt64.add_zero] at h
    have hone : (0 : UInt64) = 1 := by grind
    cases hone
  have hrounds : rounds = (rounds - 1) + 1 := rfl
  rw [fgets, if_neg hneg, hput, hrounds, fgetsLoop, if_neg hend]
  simp only [hput, Option.map_none, Option.bind_none, ite_self]

/-- `fgets` stays inside `str[0..count)` for every count but 0. -/
theorem fgets_in_bounds_iff (str : UInt64) (count : Int32) (stream : File) (reads : Reads) :
    InBounds str count stream reads ↔ count ≠ 0 := by
  constructor
  · rintro h rfl
    obtain ⟨c, hc, _⟩ := h (fun _ => none) fun i hi => absurd hi (Nat.not_lt_zero i)
    rw [fgets_zero] at hc
    cases hc
  · intro hne mem hacc
    have hne' : count.toInt ≠ 0 := fun h => hne (Int32.toInt_inj.mp h)
    rcases Int.lt_or_gt_of_ne hne' with hlt | hgt
    · have hneg : count < 0 := Int32.lt_iff_toInt_lt.mpr hlt
      exact ⟨_, by rw [fgets, if_pos hneg], fun _ _ => rfl, Nat.zero_le _⟩
    · refine ⟨_, fgets_eq hgt hacc stream reads, fun a ha => ?_, length_taken _ stream reads⟩
      refine written_outside (length_taken _ stream reads) fun i hi => ha i ?_
      rw [room] at hi
      omega

/-- A count of 0 and an empty stream: the byte at `str` is overwritten all the same. -/
theorem fgets_zero_count :
    (∃ c, fgets (fun _ => some 1) 16 0 stdinObj (deliver []) = some c ∧ c.mem 16 = some 0) ∧
      ¬InBounds 16 0 stdinObj (deliver []) := by
  constructor
  · exact ⟨_, rfl, rfl⟩
  · intro h
    obtain ⟨c, hc, _⟩ := h (fun _ => none) fun i hi => absurd hi (Nat.not_lt_zero i)
    rw [fgets_zero] at hc
    cases hc

end Calls

end LineReading
