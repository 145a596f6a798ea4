import Libdeepc.LineReading
import Libdeepc.StringCopy

/-!
# What is reported of a transfer

A call of `fread` or `fwrite` makes one system call, which may move fewer bytes than it
was asked to. Where it does, the code reports all of the elements all the same, and what
is built on these numbers reports with it.
-/

namespace TransferCounts

open ByteMemory FileStreams LineReading StringCopy

section Elements

variable {size count : UInt64} {stream : File} {moved : Nat}

/-- The number returned is at most `count` and counts the elements that were moved. -/
def Counted (size count ret : UInt64) (moved : Nat) : Prop :=
  ret ≤ count ∧ ret.toNat = moved / size.toNat

instance (size count ret : UInt64) (moved : Nat) : Decidable (Counted size count ret moved) :=
  inferInstanceAs (Decidable (_ ∧ _))

theorem counted_zero (size count : UInt64) : Counted size count 0 0 :=
  ⟨UInt64.zero_le, (Nat.zero_div _).symm⟩

/-- All of the elements are there just when all of their bytes are. -/
theorem counted_all (hsize : size ≠ 0) (h : moved ≤ size.toNat * count.toNat) :
    Counted size count count moved ↔ moved = size.toNat * count.toNat := by
  have hpos : 0 < size.toNat := UInt64.lt_iff_toNat_lt.mp (UInt64.pos_iff_ne_zero.mpr hsize)
  constructor
  · rintro ⟨_, hdiv⟩
    refine Nat.le_antisymm h ?_
    rw [hdiv]
    exact Nat.mul_div_le moved size.toNat
  · rintro rfl
    exact ⟨UInt64.le_refl count, (Nat.mul_div_cancel_left _ hpos).symm⟩

theorem atMost_le (size count : UInt64) : atMost (size * count) ≤ size.toNat * count.toNat := by
  rw [atMost, UInt64.toNat_mul]
  exact (Nat.min_le_left ..).trans (Nat.mod_le ..)

/-- The read that `fread` makes comes back with nothing or with all of the bytes. -/
def ReadAll (size count : UInt64) (reads : Reads) : Prop :=
  (read (size * count) reads.head).1 ≤ 0 ∨
    (read (size * count) reads.head).1 = size.toNat * count.toNat

def WroteAll (size count : UInt64) (writes : Writes) : Prop :=
  write (size * count) writes.head ≤ 0 ∨
    write (size * count) writes.head = size.toNat * count.toNat

/-- What `fread` returns counts the elements it has put into the buffer. -/
def ReadCounted (size count : UInt64) (stream : File) (reads : Reads) : Prop :=
  Counted size count (fread size count stream reads).ret
    (fread size count stream reads).buffer.length

def WriteCounted (size count : UInt64) (stream : File) (writes : Writes) : Prop :=
  Counted size count (fwrite size count stream writes).ret
    (fwrite size count stream writes).accepted

theorem clear_iff : Clear stream ↔ ¬(stream.eof ≠ 0 ∨ stream.err ≠ 0) := by
  rw [not_or, not_not, not_not]
  rfl

theorem read_nil {n : UInt64} {answer : Option (List UInt8)} (h : (read n answer).1 ≤ 0) :
    (read n answer).2 = [] := by
  cases answer with
  | none => rfl
  | some bs => exact List.length_eq_zero_iff.mp (Int.ofNat_le.mp h |> Nat.le_zero.mp)

theorem read_some {n : UInt64} {answer : Option (List UInt8)} (h : ¬(read n answer).1 ≤ 0) :
    (read n answer).1 = (read n answer).2.length ∧ (read n answer).2.length ≤ atMost n := by
  cases answer with
  | none => exact absurd (by decide : (-1 : Int) ≤ 0) h
  | some bs => exact ⟨rfl, List.length_take_le ..⟩

theorem write_le (n : UInt64) (answer : Option Nat) : (write n answer).toNat ≤ atMost n := by
  cases answer with
  | none => exact Nat.zero_le _
  | some k => exact Nat.min_le_right ..

/-- A write makes no call, gets nothing taken, or returns the count. -/
theorem fwrite_cases (size count : UInt64) (stream : File) (writes : Writes) :
    ((¬Clear stream ∨ size = 0 ∨ count = 0) ∧
      fwrite size count stream writes = ⟨0, 0, stream, writes⟩) ∨
    (Clear stream ∧ size ≠ 0 ∧ count ≠ 0 ∧ write (size * count) writes.head ≤ 0 ∧
      fwrite size count stream writes =
        ⟨0, 0, stream.stopped (write (size * count) writes.head), writes.tail⟩) ∨
    (Clear stream ∧ size ≠ 0 ∧ count ≠ 0 ∧ 0 < write (size * count) writes.head ∧
      fwrite size count stream writes =
        ⟨count, (write (size * count) writes.head).toNat, stream, writes.tail⟩) := by
  rw [clear_iff, not_not, fwrite]
  by_cases hflags : stream.eof ≠ 0 ∨ stream.err ≠ 0
  · exact .inl ⟨.inl hflags, if_pos hflags⟩
  · rw [if_neg hflags]
    by_cases hempty : size = 0 ∨ count = 0
    · exact .inl ⟨.inr hempty, if_pos hempty⟩
    · obtain ⟨hsize, hcount⟩ := not_or.mp hempty
      rw [if_neg hempty]
      by_cases hs : write (size * count) writes.head ≤ 0
      · refine .inr (.inl ⟨hflags, hsize, hcount, hs, ?_⟩)
        simp only [if_pos hs, Int.toNat_of_nonpos hs]
      · exact .inr (.inr ⟨hflags, hsize, hcount, Int.not_le.mp hs, if_neg hs⟩)

theorem readCounted_iff (size count : UInt64) (stream : File) (reads : Reads) :
    ReadCounted size count stream reads ↔
      Clear stream ∧ (size = 0 ∨ count = 0 ∨ ReadAll size count reads) := by
  rw [ReadCounted, clear_iff, fread]
  by_cases hflags : stream.eof ≠ 0 ∨ stream.err ≠ 0
  · have hmax : (UInt64.ofInt EOF).toNat ≠ 0 := by decide
    rw [if_pos hflags]
    refine iff_of_false (fun h => hmax (h.2.trans (Nat.zero_div _))) (fun h => h.1 hflags)
  · rw [if_neg hflags]
    by_cases hempty : size = 0 ∨ count = 0
    · rw [if_pos hempty]
      exact iff_of_true (counted_zero size count) ⟨hflags, hempty.imp_right .inl⟩
    · rw [if_neg hempty]
      obtain ⟨hsize, hcount⟩ := not_or.mp hempty
      simp only [hsize, hcount, hflags, not_false_eq_true, true_and, false_or, ReadAll]
      by_cases hs : (read (size * count) reads.head).1 ≤ 0
      · rw [if_pos hs, read_nil hs]
        exact iff_of_true (counted_zero size count) (.inl hs)
      · obtain ⟨hlen, hle⟩ := read_some hs
        rw [if_neg hs, counted_all hsize (hle.trans (atMost_le size count)), hlen]
        norm_cast
        exact ⟨.inr, fun h => h.resolve_left (by omega)⟩

theorem writeCounted_iff (size count : UInt64) (stream : File) (writes : Writes) :
    WriteCounted size count stream writes ↔
      ¬Clear stream ∨ size = 0 ∨ count = 0 ∨ WroteAll size count writes := by
  rw [WriteCounted]
  rcases fwrite_cases size count stream writes with
    ⟨hnone, hcall⟩ | ⟨_, _, _, hs, hcall⟩ | ⟨hclear, hsize, hcount, hs, hcall⟩
  · rw [hcall]
    exact iff_of_true (counted_zero size count) (hnone.imp_right fun h => h.imp_right .inl)
  · rw [hcall]
    exact iff_of_true (counted_zero size count) (.inr (.inr (.inr (.inl hs))))
  · have hle := (write_le (size * count) writes.head).trans (atMost_le size count)
    rw [hcall, counted_all hsize hle]
    simp only [hclear, hsize, hcount, not_true_eq_false, false_or, WroteAll]
    omega

end Elements

section Strings

variable {mem : Mem} {s : UInt64} {t : List UInt8}

/-- Success is reported just when the text and the newline have been taken. -/
def PutTold (t : List UInt8) (c : PutCall) : Prop := c.ret ≠ EOF ↔ c.accepted = t.length + 1

instance (t : List UInt8) (c : PutCall) : Decidable (PutTold t c) :=
  inferInstanceAs (Decidable (_ ↔ _))

/-- The text is taken as a whole unless one of the writes takes nothing. Where the number of
characters looks like `EOF`, it is the other way round. -/
def PutAll (len : Nat) (stream : File) (writes : Writes) : Prop :=
  ¬Clear stream ∨ len = 0 ∨ 2 ^ 63 ≤ len ∨ write (.ofNat len) writes.head ≤ 0 ∨
    write 1 writes.tail.head ≤ 0 ∨
    (write (.ofNat len) writes.head = len ↔ (len + 2) % 2 ^ 32 ≠ 0)

theorem fputc_newline (stream : File) (writes : Writes) :
    ((¬Clear stream ∨ write 1 writes.head ≤ 0) ∧ (fputc 10 stream writes).ret = EOF ∧
      (fputc 10 stream writes).accepted = 0) ∨
    (Clear stream ∧ 0 < write 1 writes.head ∧ (fputc 10 stream writes).ret = 10 ∧
      (fputc 10 stream writes).accepted = 1) := by
  have hone : (1 : UInt64) * 1 = 1 := by decide
  have hzero : (0 : UInt64) ≠ 1 := by decide
  rw [fputc]
  rcases fwrite_cases 1 1 stream writes with
    ⟨hnone, hcall⟩ | ⟨_, _, _, hs, hcall⟩ | ⟨hclear, _, _, hs, hcall⟩
  · rw [hcall]
    exact .inl ⟨.inl (hnone.resolve_right (by decide)), rfl, rfl⟩
  · rw [hone] at hs
    rw [hcall]
    exact .inl ⟨.inr hs, rfl, rfl⟩
  · have hle := write_le 1 writes.head
    have hat : atMost 1 = 1 := by decide
    rw [hone] at hs hcall
    rw [hcall]
    refine .inr ⟨hclear, hs, rfl, ?_⟩
    change (write 1 writes.head).toNat = 1
    omega

theorem toInt32_eq_EOF (x : UInt32) : x.toInt32.toInt = EOF ↔ x = 4294967295 := by
  have hback : (4294967295 : UInt32).toInt32.toInt = EOF := by decide
  rw [← hback, Int32.toInt_inj]
  exact ⟨fun h => congrArg Int32.toUInt32 h, congrArg UInt32.toInt32⟩

/-- The number of characters is returned as an `int`, where it may look like `EOF`. -/
theorem length_eq_EOF (len : Nat) :
    (UInt64.ofNat len + 1).toUInt32.toInt32.toInt = EOF ↔ (len + 2) % 2 ^ 32 = 0 := by
  have hnat : (UInt64.ofNat len + 1).toUInt32.toNat = (len + 1) % 2 ^ 32 := by
    have hone : (1 : UInt64).toNat = 1 := rfl
    rw [UInt64.toNat_toUInt32, UInt64.toNat_add, UInt64.toNat_ofNat', hone]
    omega
  have hmax : (4294967295 : UInt32).toNat = 2 ^ 32 - 1 := rfl
  rw [toInt32_eq_EOF, ← UInt32.toNat_inj, hnat, hmax]
  omega

/-- The text is refused before the newline is written. -/
def Refused (len : UInt64) (stream : File) (writes : Writes) : Prop :=
  (fwrite 1 len stream writes).ret.toInt64 < 0 ∨ (fwrite 1 len stream writes).ret < len

/-- A text is refused with a flag set, when nothing is taken of it, or because of its length. -/
theorem refused_or {len : Nat} (hlen : len < 2 ^ 64) (stream : File) (writes : Writes) :
    (Refused (.ofNat len) stream writes ∧
      (fwrite 1 (.ofNat len) stream writes).accepted ≠ len + 1 ∧
      (¬Clear stream ∨ 2 ^ 63 ≤ len ∨ write (.ofNat len) writes.head ≤ 0)) ∨
    (¬Refused (.ofNat len) stream writes ∧ len = 0 ∧
      fwrite 1 (.ofNat len) stream writes = ⟨0, 0, stream, writes⟩) ∨
    (¬Refused (.ofNat len) stream writes ∧ Clear stream ∧ len ≠ 0 ∧ len < 2 ^ 63 ∧
      0 < write (.ofNat len) writes.head ∧ fwrite 1 (.ofNat len) stream writes =
        ⟨.ofNat len, (write (.ofNat len) writes.head).toNat, stream, writes.tail⟩) := by
  have hone : (1 : UInt64) * .ofNat len = .ofNat len := UInt64.one_mul _
  have hzero : UInt64.ofNat len = 0 ↔ len = 0 := by
    rw [← UInt64.toNat_inj, UInt64.toNat_ofNat', Nat.mod_eq_of_lt hlen]
    rfl
  have hnat : (UInt64.ofNat len).toNat = len := by
    rw [UInt64.toNat_ofNat', Nat.mod_eq_of_lt hlen]
  have hneg : (UInt64.ofNat len).toInt64 < 0 ↔ 2 ^ 63 ≤ len := by
    rw [Int64.lt_iff_toInt_lt, UInt64.toInt64_ofNat', Int64.toInt_ofNat']
    change (len : Int).bmod 18446744073709551616 < 0 ↔ _
    rw [Int.bmod_def]
    omega
  have hpos : (0 : UInt64) < .ofNat len ↔ len ≠ 0 := by
    rw [UInt64.pos_iff_ne_zero]
    exact not_congr hzero
  have hzeroNeg : ¬(0 : UInt64).toInt64 < 0 := by decide
  rw [Refused]
  rcases fwrite_cases 1 (.ofNat len) stream writes with
    ⟨hnone, hcall⟩ | ⟨_, _, hne, hs, hcall⟩ | ⟨hclear, _, hne, hs, hcall⟩
  · simp only [hcall, hzeroNeg, false_or, hpos]
    by_cases hempty : len = 0
    · exact .inr (.inl ⟨not_not.mpr hempty, hempty, trivial⟩)
    · refine .inl ⟨hempty, nofun, .inl (hnone.resolve_right ?_)⟩
      rw [hzero]
      exact not_or.mpr ⟨by decide, hempty⟩
  · rw [hone] at hs
    simp only [hcall, hzeroNeg, false_or, hpos]
    exact .inl ⟨fun h => hne (hzero.mpr h), nofun, .inr (.inr hs)⟩
  · have hle := (write_le (.ofNat len) writes.head).trans (Nat.min_le_left ..)
    have hmax := (write_le (.ofNat len) writes.head).trans (Nat.min_le_right ..)
    rw [hone] at hs hcall
    simp only [hcall, UInt64.lt_irrefl, or_false, hneg]
    rw [hnat] at hle
    have hne' : len ≠ 0 := mt hzero.mpr hne
    by_cases hbig : 2 ^ 63 ≤ len
    · refine .inl ⟨hbig, ?_, .inr (.inl hbig)⟩
      omega
    · exact .inr (.inr ⟨hbig, hclear, hne', Nat.not_le.mp hbig, hs, trivial⟩)

theorem fputs_refused (h : TextAt mem s t) {stream : File} {writes : Writes}
    (hrefused : Refused (.ofNat t.length) stream writes) : ∃ c,
      fputs mem s stream writes = some c ∧ c.ret = EOF ∧
      c.accepted = (fwrite 1 (.ofNat t.length) stream writes).accepted := by
  rw [fputs, SubstringSearch.strlen_eq h, Option.map_some]
  exact ⟨_, congrArg some (if_pos hrefused), rfl, rfl⟩

/-- Behind the text the result is that of the newline. -/
theorem fputs_taken (h : TextAt mem s t) {stream stream' : File} {writes writes' : Writes}
    {ret : UInt64} {accepted : Nat} (htaken : ¬Refused (.ofNat t.length) stream writes)
    (hcall : fwrite 1 (.ofNat t.length) stream writes = ⟨ret, accepted, stream', writes'⟩) :
    ∃ c, fputs mem s stream writes = some c ∧
      c.accepted = accepted + (fputc 10 stream' writes').accepted ∧
      (c.ret = EOF ↔ (fputc 10 stream' writes').ret ≠ 10 ∨ (t.length + 2) % 2 ^ 32 = 0) := by
  rw [fputs, SubstringSearch.strlen_eq h, Option.map_some]
  refine ⟨_, congrArg some (if_neg htaken), ?_⟩
  rw [hcall]
  by_cases hnewline : (fputc 10 stream' writes').ret = 10
  · have hagain : ¬(fputc 10 stream' writes').ret ≠ 10 := not_not.mpr hnewline
    simp only [if_neg hagain, length_eq_EOF, true_and]
    exact ⟨.inr, fun h => h.resolve_left hagain⟩
  · simp only [if_pos hnewline, true_and]
    exact iff_of_true trivial (.inl hnewline)

/-- `fputs` tells what has happened to the line just when the text is not cut short. -/
theorem putTold_iff (h : TextAt mem s t) (stream : File) (writes : Writes) :
    ∃ c, fputs mem s stream writes = some c ∧ (PutTold t c ↔ PutAll t.length stream writes) := by
  have hlen : t.length < 2 ^ 64 := Nat.lt_of_succ_lt h.length_lt
  rcases refused_or hlen stream writes with
    ⟨hrefused, haccepted, hwhy⟩ | ⟨htaken, hempty, hcall⟩ | ⟨htaken, hclear, hne, hbig, hs, hcall⟩
  · obtain ⟨c, hc, hret, hfirst⟩ := fputs_refused h hrefused
    refine ⟨c, hc, iff_of_true (iff_of_false (not_not.mpr hret) (hfirst ▸ haccepted)) ?_⟩
    exact hwhy.imp_right fun h => .inr (h.imp_right .inl)
  · obtain ⟨c, hc, haccepted, hret⟩ := fputs_taken h htaken hcall
    refine ⟨c, hc, iff_of_true ?_ (.inr (.inl hempty))⟩
    rw [PutTold, Ne, hret, haccepted, hempty]
    rcases fputc_newline stream writes with ⟨_, hch, hnone⟩ | ⟨_, _, hch, hone⟩
    · rw [hch, hnone]
      decide
    · rw [hch, hone]
      decide
  · obtain ⟨c, hc, haccepted, hret⟩ := fputs_taken h htaken hcall
    have hle := (write_le (.ofNat t.length) writes.head).trans (Nat.min_le_left ..)
    rw [UInt64.toNat_ofNat', Nat.mod_eq_of_lt hlen] at hle
    refine ⟨c, hc, ?_⟩
    rw [PutTold, Ne, hret, haccepted, PutAll]
    rcases fputc_newline stream writes.tail with ⟨hwhy, hch, hnone⟩ | ⟨_, hone, hch, htook⟩
    · have hnewline : write 1 writes.tail.head ≤ 0 := hwhy.resolve_left (not_not.mpr hclear)
      refine iff_of_true (iff_of_false ?_ ?_) (by simp only [hnewline, true_or, or_true])
      · rw [hch]
        exact not_not.mpr (.inl (by decide))
      · rw [hnone]
        omega
    · simp only [hch, htook, hclear, hne, not_true_eq_false, false_or]
      omega

end Strings

/-- When the numbers of `fread`, `fwrite`, `fputs` and `puts` are right. -/
theorem transfers_counted_iff (size count : UInt64) (stream : File) (reads : Reads)
    (writes : Writes) {mem : Mem} {s : UInt64} {t : List UInt8} (h : TextAt mem s t) :
    (ReadCounted size count stream reads ↔
      Clear stream ∧ (size = 0 ∨ count = 0 ∨ ReadAll size count reads)) ∧
    (WriteCounted size count stream writes ↔
      ¬Clear stream ∨ size = 0 ∨ count = 0 ∨ WroteAll size count writes) ∧
    (∃ c, fputs mem s stream writes = some c ∧ (PutTold t c ↔ PutAll t.length stream writes)) ∧
    ∃ c, puts mem s stream writes = some c ∧ (PutTold t c ↔ PutAll t.length stream writes) :=
  ⟨readCounted_iff size count stream reads, writeCounted_iff size count stream writes,
    putTold_iff h stream writes, putTold_iff h stream writes⟩

/-- `"ab"` at 16. -/
def ab : Mem := fun a => if a = 16 then some 97 else if a = 17 then some 98 else some 0

theorem textAt_ab : TextAt ab 16 [97, 98] := ⟨by decide, by decide, by decide, by decide⟩

/-- Elements of two bytes, with two of four and all four taken, and `"ab"` on a full disk. -/
theorem transfers_counted_iff_ab : ¬WriteCounted 2 2 stdoutObj (Stream'.const (some 2)) ∧
    WriteCounted 2 2 stdoutObj (Stream'.const (some 4)) ∧
    ∃ c, puts ab 16 stdoutObj (Stream'.const none) = some c ∧ PutTold [97, 98] c := by
  obtain ⟨_, hshort, _⟩ := transfers_counted_iff 2 2 stdoutObj (Stream'.const none)
    (Stream'.const (some 2)) textAt_ab
  obtain ⟨_, hfull, _⟩ := transfers_counted_iff 2 2 stdoutObj (Stream'.const none)
    (Stream'.const (some 4)) textAt_ab
  obtain ⟨_, _, _, c, hc, htold⟩ := transfers_counted_iff 1 1 stdoutObj (Stream'.const none)
    (Stream'.const none) textAt_ab
  refine ⟨fun hcounted => ?_, hfull.mpr ?_, c, hc, htold.mpr ?_⟩
  · rcases hshort.mp hcounted with hflag | hzero | hzero | hall | hall
    · exact hflag (by decide)
    · cases hzero
    · cases hzero
    · cases hall
    · cases hall
  · exact .inr (.inr (.inr (.inr rfl)))
  · exact .inr (.inr (.inr (.inl (by decide))))

/-- A flag makes `fread` return the largest number there is; a short read, a short write and a
string that is cut short are reported as complete. -/
theorem short_transfers_miscounted :
    (fread 1 1 { stdinObj with eof := 1 } (Stream'.const none)).ret.toNat = 2 ^ 64 - 1 ∧
    ¬ReadCounted 1 1 { stdinObj with eof := 1 } (Stream'.const none) ∧
    ¬ReadCounted 1 4 stdinObj (Stream'.const (some [1, 2])) ∧
    ¬WriteCounted 1 4 stdoutObj (Stream'.const (some 2)) ∧
    ∃ c, fputs ab 16 stdoutObj (Stream'.const (some 1)) = some c ∧ c.ret = 3 ∧ c.accepted = 2 ∧
      ¬PutTold [97, 98] c := by
  refine ⟨by decide, ?_, ?_, ?_, ?_⟩
  · rw [readCounted_iff]
    exact fun h => absurd h.1 (by decide)
  · rw [readCounted_iff]
    rintro ⟨_, hzero | hzero | hall | hall⟩
    · cases hzero
    · cases hzero
    · cases hall
    · cases hall
  · rw [writeCounted_iff]
    rintro (hflag | hzero | hzero | hall | hall)
    · exact hflag (by decide)
    · cases hzero
    · cases hzero
    · cases hall
    · cases hall
  · have hlen : StringFunctions.strlen ab 16 = some 2 := SubstringSearch.strlen_eq textAt_ab
    rw [fputs, hlen]
    exact ⟨_, rfl, by decide, by decide, by decide⟩

end TransferCounts
