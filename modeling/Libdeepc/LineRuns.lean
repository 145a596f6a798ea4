import Libdeepc.LineReading

/-!
# A stream read line by line

Successive calls of `fgets` cut the stream into lines and lose nothing of it. What they
do not do is tell the caller that the stream has ended: the empty line at the end is
returned like any other.
-/

namespace LineRuns

open ByteMemory FileStreams LineReading Runs

/-- A call: the memory it is made in and a buffer there, for one character and the NUL at least. -/
structure Request where
  mem : Mem
  str : UInt64
  count : Int32
  two_le : 2 ≤ count.toInt
  accessible : Accessible mem str count.toInt.toNat
  nonnull : str ≠ 0

structure State where
  stream : File
  reads : Reads
  calls : List (Request × LineCall)

def step (s : State) (q : Request) : Option State :=
  (fgets q.mem q.str q.count s.stream s.reads).map fun c =>
    ⟨c.stream, c.reads, s.calls ++ [(q, c)]⟩

/-- The characters stored so far. -/
def State.stored (s : State) : List UInt8 := s.calls.flatMap fun p => p.2.line

/-- The buffer holds a line and its NUL, nothing else has changed, and the line goes as far as it
can. -/
structure LineLaw (q : Request) (c : LineCall) : Prop where
  holds : Holds c.mem q.str (c.line ++ [0])
  outside : ∀ a, (∀ i, i < q.count.toInt.toNat → a ≠ q.str + .ofNat i) → c.mem a = q.mem a
  fits : c.line.length ≤ q.count.toInt.toNat - 1
  newline : 10 ∉ c.line.dropLast
  full : c.line.length < q.count.toInt.toNat - 1 →
    c.line.getLast? = some 10 ∨ feof c.stream = true

section Step

variable {s s' : State} {q : Request} {bs : List UInt8} {n : Nat}

/-- What the call takes from the stream. -/
def takenBy (s : State) (q : Request) : Taken := taken (room q.count) s.stream s.reads

def callOf (s : State) (q : Request) : LineCall where
  ret := if (takenBy s q).stop = .failed then 0 else q.str
  mem := written q.mem q.str (takenBy s q).line (takenBy s q).stop
  line := (takenBy s q).line
  stream := streamAfter s.stream (takenBy s q).stop
  reads := (takenBy s q).reads

theorem fgets_of_request (s : State) (q : Request) :
    fgets q.mem q.str q.count s.stream s.reads = some (callOf s q) :=
  fgets_eq (by have := q.two_le; omega) q.accessible s.stream s.reads

theorem step_eq (s : State) (q : Request) : step s q =
    some ⟨(callOf s q).stream, (callOf s q).reads, s.calls ++ [(q, callOf s q)]⟩ := by
  rw [step, fgets_of_request]
  rfl

theorem one_le_room (q : Request) : 1 ≤ room q.count := by
  have := q.two_le
  rw [room]
  omega

theorem lineLaw_of_step (hfailed : (takenBy s q).stop ≠ .failed) : LineLaw q (callOf s q) := by
  have hlt := q.count.toInt_lt
  have hlen := length_taken (room q.count) s.stream s.reads
  have hroom : room q.count = q.count.toInt.toNat - 1 := rfl
  constructor
  · have hmem : (callOf s q).mem = patch q.mem q.str ((takenBy s q).line ++ [0]) := by
      change written q.mem q.str (takenBy s q).line (takenBy s q).stop = _
      cases hstop : (takenBy s q).stop with
      | done => rfl
      | ended => rfl
      | failed => exact absurd hstop hfailed
    rw [hmem]
    apply holds_patch
    rw [List.length_append, List.length_singleton, takenBy]
    omega
  · intro a ha
    refine written_outside hlen fun i hi => ha i ?_
    have := q.two_le
    omega
  · exact hlen
  · exact newline_taken _ s.stream s.reads
  · exact short_taken hfailed

end Step

section Delivered

variable {s s' : State} {q : Request} {bs rest : List UInt8} {n : Nat}

theorem deliver_cons (b : UInt8) (bs : List UInt8) : (deliver (b :: bs)).tail = deliver bs := rfl

/-- A line from delivered bytes: it loses none, and it is empty only at the end. -/
theorem takeLine_deliver (n : Nat) (bs : List UInt8) :
    ∃ rest, (takeLine n (deliver bs)).line ++ rest = bs ∧
      (takeLine n (deliver bs)).reads = deliver rest ∧
      ((takeLine n (deliver bs)).stop = .done ∧ (1 ≤ n → (takeLine n (deliver bs)).line ≠ []) ∨
        (takeLine n (deliver bs)).stop = .ended ∧ rest = []) := by
  induction n generalizing bs with
  | zero => exact ⟨bs, rfl, rfl, .inl ⟨rfl, fun h => absurd h (by decide)⟩⟩
  | succ n ih =>
    cases bs with
    | nil => exact ⟨[], rfl, rfl, .inr ⟨rfl, rfl⟩⟩
    | cons b bs =>
      have h : receive (deliver (b :: bs)).head = .byte b := rfl
      by_cases hb : b = 10
      · subst hb
        rw [takeLine_newline h]
        exact ⟨bs, rfl, rfl, .inl ⟨rfl, fun _ => List.cons_ne_nil 10 []⟩⟩
      · obtain ⟨rest, hline, hreads, hstop⟩ := ih bs
        rw [takeLine_byte h hb, deliver_cons]
        refine ⟨rest, congrArg (b :: ·) hline, hreads, ?_⟩
        exact hstop.imp_left fun hdone => ⟨hdone.1, fun _ => List.cons_ne_nil _ _⟩

/-- The bytes of the stream are stored or still to come. -/
structure Inv (bs : List UInt8) (s : State) : Prop where
  split : ∃ rest, s.stored ++ rest = bs ∧ s.reads = deliver rest ∧
    (feof s.stream = true → rest = [])
  noError : ferror s.stream = false
  lines : ∀ p ∈ s.calls, LineLaw p.1 p.2 ∧ p.2.ret ≠ 0
  progress : s.calls.length ≤ s.stored.length ∨ feof s.stream = true

theorem takenBy_deliver (h : Inv bs s) (q : Request) : ∃ rest,
    s.stored ++ (takenBy s q).line ++ rest = bs ∧ (takenBy s q).reads = deliver rest ∧
    (takenBy s q).stop ≠ .failed ∧ ((takenBy s q).stop = .ended → rest = []) ∧
    (feof s.stream = false ∧ (takenBy s q).line ≠ [] ∨ (takenBy s q).stop = .ended) := by
  obtain ⟨rest, hsplit, hreads, hend⟩ := h.split
  rw [takenBy]
  rcases taken_cases (room q.count) s.stream s.reads with
    ⟨herr, _, _⟩ | ⟨_, heof, htaken, _⟩ | ⟨_, heof, htaken, _⟩
  · rw [h.noError] at herr
    cases herr
  · rw [htaken]
    exact ⟨rest, by rwa [List.append_nil], hreads, nofun, fun _ => hend heof, .inr rfl⟩
  · rw [htaken, hreads]
    obtain ⟨rest', hline, hreads', hstop⟩ := takeLine_deliver (room q.count) rest
    refine ⟨rest', by rw [List.append_assoc, hline, hsplit], hreads', ?_⟩
    rcases hstop with ⟨hdone, hne⟩ | ⟨hended, hnil⟩
    · rw [hdone]
      exact ⟨nofun, nofun, .inl ⟨heof, hne (one_le_room q)⟩⟩
    · exact ⟨hended ▸ nofun, fun _ => hnil, .inr hended⟩

theorem inv_step (h : Inv bs s) (hstep : step s q = some s') : Inv bs s' := by
  rw [step_eq] at hstep
  obtain rfl := Option.some.inj hstep
  obtain ⟨rest, hsplit, hreads, hfailed, hended, hmore⟩ := takenBy_deliver h q
  have hstored : State.stored ⟨(callOf s q).stream, (callOf s q).reads,
      s.calls ++ [(q, callOf s q)]⟩ = s.stored ++ (takenBy s q).line := by
    simp only [State.stored, List.flatMap_append, List.flatMap_singleton]
    rfl
  have heof : feof (callOf s q).stream = true ↔ (takenBy s q).stop = .ended :=
    feof_streamAfter hfailed
  constructor
  · exact ⟨rest, hstored ▸ hsplit, hreads, fun h => hended (heof.mp h)⟩
  · exact Bool.eq_false_iff.mpr fun herr => hfailed ((ferror_streamAfter _ _ _).mp herr)
  · intro p hp
    rcases List.mem_append.mp hp with hp | hp
    · exact h.lines p hp
    · rw [List.mem_singleton.mp hp]
      exact ⟨lineLaw_of_step hfailed, (if_neg hfailed).trans_ne q.nonnull⟩
  · rcases hmore with ⟨hbefore, hne⟩ | hstop
    · have hle := h.progress.resolve_right (Bool.eq_false_iff.mp hbefore)
      have hpos := List.length_pos_of_ne_nil hne
      rw [hstored, List.length_append, List.length_append, List.length_singleton]
      omega
    · exact .inr (heof.mpr hstop)

theorem inv_start (bs : List UInt8) {stream : File} (h : Clear stream) :
    Inv bs ⟨stream, deliver bs, []⟩ where
  split := ⟨bs, rfl, rfl, fun heof => absurd h.1 (of_decide_eq_true heof)⟩
  noError := decide_eq_false (not_not.mpr h.2)
  lines _ hp := absurd hp List.not_mem_nil
  progress := .inl (Nat.le_refl 0)

theorem step_total (s : State) (q : Request) : ∃ s', step s q = some s' := ⟨_, step_eq s q⟩

theorem calls_of_exec {qs : List Request} (h : exec step s qs = some s') :
    s'.calls.map Prod.fst = s.calls.map Prod.fst ++ qs := by
  induction qs generalizing s with
  | nil =>
    obtain rfl := Option.some.inj h
    rw [List.append_nil]
  | cons q qs ih =>
    rw [exec_cons, step_eq, Option.bind_some] at h
    rw [ih h, List.map_append, List.append_assoc]
    rfl

end Delivered

/-- Every call stores a line of the stream, and together they store the stream: as far as they have
come, and all of it when the end flag is set, which takes one call more than there are bytes at
most. -/
theorem fgets_keeps_stream (bs : List UInt8) (stream : File) (h : Clear stream)
    (qs : List Request) : ∃ s, exec step ⟨stream, deliver bs, []⟩ qs = some s ∧
      s.calls.map Prod.fst = qs ∧ (∀ p ∈ s.calls, LineLaw p.1 p.2) ∧ s.stored <+: bs ∧
      (feof s.stream = true → s.stored = bs) ∧
      (bs.length < qs.length → feof s.stream = true) := by
  obtain ⟨s, hexec⟩ := exec_total step_total qs ⟨stream, deliver bs, []⟩
  have hinv : Inv bs s := inv_of_exec (fun _ _ _ hs _ hstep => inv_step hs hstep)
    (inv_start bs h) (along_of_forall (fun _ _ => trivial) _) hexec
  have hcalls : s.calls.map Prod.fst = qs := calls_of_exec hexec
  obtain ⟨rest, hsplit, _, hend⟩ := hinv.split
  refine ⟨s, hexec, hcalls, fun p hp => (hinv.lines p hp).1, ⟨rest, hsplit⟩, fun heof => ?_,
    fun hlong => ?_⟩
  · rw [← hsplit, hend heof, List.append_nil]
  · refine hinv.progress.resolve_left fun hle => ?_
    have hlen := congrArg List.length hcalls
    have hbytes := congrArg List.length hsplit
    rw [List.length_map] at hlen
    rw [List.length_append] at hbytes
    omega

section Told

variable {s s' : State} {q : Request} {reads : Reads} {k : Nat}

/-- The result is NULL just when an error is on record, or the end with no character stored. -/
def Told (c : LineCall) : Prop :=
  c.ret = 0 ↔ ferror c.stream = true ∨ feof c.stream = true ∧ c.line = []

/-- The call made in this state tells what it met. -/
def ToldAt (s : State) (q : Request) : Prop :=
  ∃ c, fgets q.mem q.str q.count s.stream s.reads = some c ∧ Told c

/-- There is no error, and the stream has ended or ends with the next read. -/
def AtEnd (s : State) : Prop :=
  ferror s.stream = false ∧ (feof s.stream = true ∨ s.reads.head = some [])

theorem receive_failed {answer : Option (List UInt8)} :
    receive answer = .failed ↔ answer = none := by
  match answer with
  | none => exact iff_of_true rfl rfl
  | some [] => exact iff_of_false nofun nofun
  | some (b :: bs) => exact iff_of_false nofun nofun

theorem receive_ended {answer : Option (List UInt8)} :
    receive answer = .ended ↔ answer = some [] := by
  match answer with
  | none => exact iff_of_false nofun nofun
  | some [] => exact iff_of_true rfl rfl
  | some (b :: bs) => exact iff_of_false nofun (fun h => nomatch h)

/-- An empty line at the end of a stream means that its first read is the end. -/
theorem takeLine_ended_nil {n : Nat} (hn : 1 ≤ n) : (takeLine n reads).stop = .ended ∧
    (takeLine n reads).line = [] ↔ reads.head = some [] := by
  obtain ⟨n, rfl⟩ := Nat.exists_eq_succ_of_ne_zero (Nat.ne_of_gt hn)
  rw [← receive_ended]
  cases h : receive reads.head with
  | failed =>
    rw [takeLine_failed h]
    exact iff_of_false (fun h => nomatch h.1) nofun
  | ended =>
    rw [takeLine_ended h]
    exact iff_of_true ⟨rfl, rfl⟩ rfl
  | byte b =>
    refine iff_of_false (fun hempty => ?_) nofun
    by_cases hb : b = 10
    · rw [takeLine_newline (hb ▸ h)] at hempty
      cases hempty.1
    · rw [takeLine_byte h hb] at hempty
      cases hempty.2

theorem atEnd_iff (s : State) (q : Request) :
    AtEnd s ↔ (takenBy s q).stop = .ended ∧ (takenBy s q).line = [] := by
  rw [AtEnd, takenBy]
  rcases taken_cases (room q.count) s.stream s.reads with
    ⟨herr, htaken, _⟩ | ⟨herr, heof, htaken, _⟩ | ⟨herr, heof, htaken, _⟩
  · rw [herr, htaken]
    exact iff_of_false (fun h => nomatch h.1) (fun h => nomatch h.1)
  · rw [htaken]
    exact iff_of_true ⟨herr, .inl heof⟩ ⟨rfl, rfl⟩
  · rw [htaken, takeLine_ended_nil (one_le_room q), herr, heof]
    simp only [Bool.false_eq_true, false_or, true_and]

theorem ret_eq_zero (s : State) (q : Request) :
    (callOf s q).ret = 0 ↔ (takenBy s q).stop = .failed := by
  change (if (takenBy s q).stop = .failed then 0 else q.str) = 0 ↔ _
  by_cases hstop : (takenBy s q).stop = .failed
  · rw [if_pos hstop]
    exact iff_of_true rfl hstop
  · rw [if_neg hstop]
    exact iff_of_false q.nonnull hstop

/-- A call tells what it met unless it is made at the end. -/
theorem toldAt_iff (s : State) (q : Request) : ToldAt s q ↔ ¬AtEnd s := by
  have hcall : ToldAt s q ↔ Told (callOf s q) := by
    rw [ToldAt, fgets_of_request]
    exact ⟨fun ⟨_, hc, htold⟩ => Option.some.inj hc ▸ htold, fun htold => ⟨_, rfl, htold⟩⟩
  have herr : ferror (callOf s q).stream = true ↔ (takenBy s q).stop = .failed :=
    ferror_streamAfter _ _ _
  rw [hcall, atEnd_iff s q, Told, ret_eq_zero, herr]
  by_cases hfailed : (takenBy s q).stop = .failed
  · rw [hfailed]
    exact iff_of_true (iff_of_true rfl (.inl rfl)) (fun h => nomatch h.1)
  · have heof : feof (callOf s q).stream = true ↔ (takenBy s q).stop = .ended :=
      feof_streamAfter hfailed
    simp only [hfailed, false_or, false_iff, heof]
    rfl

end Told

section Loop

variable {s s' : State} {q : Request} {reads : Reads} {k : Nat}

/-- `while (fgets(buf, count, f))` comes to an end: one of its calls returns NULL. -/
def LoopEnds (s : State) (qs : Nat → Request) : Prop :=
  ∃ n s', exec step s ((List.range n).map qs) = some s' ∧ ∃ p ∈ s'.calls, p.2.ret = 0

/-- The read number `n` is the first that fails, and the end has not come before it. -/
def ErrorAt (reads : Reads) (n : Nat) : Prop :=
  reads.get n = none ∧ ∀ m, m < n → reads.get m ≠ some []

/-- There is an error, or one comes before the end. -/
def ErrorFirst (stream : File) (reads : Reads) : Prop :=
  ferror stream = true ∨ feof stream = false ∧ ∃ n, ErrorAt reads n

theorem errorAt_succ {n : Nat} :
    ErrorAt reads (n + 1) ↔ reads.head ≠ some [] ∧ ErrorAt reads.tail n := by
  constructor
  · intro h
    exact ⟨h.2 0 (Nat.succ_pos n), h.1, fun m hm => h.2 (m + 1) (Nat.succ_lt_succ hm)⟩
  · rintro ⟨hhead, hnone, hmore⟩
    refine ⟨hnone, fun m hm => ?_⟩
    cases m with
    | zero => exact hhead
    | succ m => exact hmore m (Nat.lt_of_succ_lt_succ hm)

theorem errorAt_byte {b : UInt8} (h : receive reads.head = .byte b) {n : Nat} :
    ErrorAt reads n ↔ ∃ j, n = j + 1 ∧ ErrorAt reads.tail j := by
  cases n with
  | zero =>
    refine iff_of_false (fun hzero => ?_) (fun ⟨_, hj, _⟩ => nomatch hj)
    rw [receive_failed.mpr hzero.1] at h
    cases h
  | succ n =>
    have hhead : reads.head ≠ some [] := by
      intro hended
      rw [receive_ended.mpr hended] at h
      cases h
    rw [errorAt_succ]
    exact ⟨fun hn => ⟨n, rfl, hn.2⟩, fun ⟨j, hj, herr⟩ => ⟨hhead, Nat.succ.inj hj ▸ herr⟩⟩

/-- A line that has not met the end or an error is not empty. -/
theorem takeLine_ne_nil {n : Nat} (hn : 1 ≤ n) (hdone : (takeLine n reads).stop = .done) :
    (takeLine n reads).line ≠ [] := by
  obtain ⟨n, rfl⟩ := Nat.exists_eq_succ_of_ne_zero (Nat.ne_of_gt hn)
  cases h : receive reads.head with
  | failed =>
    rw [takeLine_failed h] at hdone
    cases hdone
  | ended =>
    rw [takeLine_ended h] at hdone
    cases hdone
  | byte b =>
    by_cases hb : b = 10
    · rw [takeLine_newline (hb ▸ h)]
      exact List.cons_ne_nil 10 []
    · rw [takeLine_byte h hb]
      exact List.cons_ne_nil b _

theorem exec_singleton (s : State) (q : Request) : exec step s [q] =
    some ⟨(callOf s q).stream, (callOf s q).reads, s.calls ++ [(q, callOf s q)]⟩ := by
  rw [exec_cons, step_eq]
  rfl

/-- A line knows where the first error is, or what is left of the way to it. -/
theorem takeLine_errors (n : Nat) (reads : Reads) :
    match (takeLine n reads).stop with
    | .failed => ErrorAt reads (takeLine n reads).line.length
    | .ended => ∀ k, ¬ErrorAt reads k
    | .done => ∀ k, ErrorAt reads k ↔
        ∃ j, k = j + (takeLine n reads).line.length ∧ ErrorAt (takeLine n reads).reads j := by
  fun_induction takeLine n reads with
  | case1 reads =>
    intro k
    constructor
    · exact fun h => ⟨k, rfl, h⟩
    · rintro ⟨j, hj, h⟩
      exact hj ▸ h
  | case2 n reads h => exact ⟨receive_failed.mp h, fun m hm => absurd hm (Nat.not_lt_zero m)⟩
  | case3 n reads h =>
    intro k hk
    cases k with
    | zero => exact absurd ((receive_ended.mp h).symm.trans hk.1) (Option.some_ne_none _)
    | succ k => exact (errorAt_succ.mp hk).1 (receive_ended.mp h)
  | case4 n reads h => exact fun k => errorAt_byte h
  | case5 n reads b h hb t ih =>
    change match t.stop with
      | .failed => ErrorAt reads (t.line.length + 1)
      | .ended => ∀ k, ¬ErrorAt reads k
      | .done => ∀ k, ErrorAt reads k ↔
          ∃ j, k = j + (t.line.length + 1) ∧ ErrorAt t.reads j
    revert ih
    change (match t.stop with
      | .failed => ErrorAt reads.tail t.line.length
      | .ended => ∀ k, ¬ErrorAt reads.tail k
      | .done => ∀ k, ErrorAt reads.tail k ↔
          ∃ j, k = j + t.line.length ∧ ErrorAt t.reads j) → _
    cases t.stop with
    | failed => exact fun ih => (errorAt_byte h).mpr ⟨_, rfl, ih⟩
    | ended => exact fun ih k hk => (errorAt_byte h).mp hk |>.elim fun j hj => ih j hj.2
    | done =>
      intro ih k
      rw [errorAt_byte h]
      constructor
      · rintro ⟨i, rfl, hi⟩
        obtain ⟨j, rfl, hj⟩ := (ih i).mp hi
        exact ⟨j, rfl, hj⟩
      · rintro ⟨j, rfl, hj⟩
        exact ⟨j + t.line.length, rfl, (ih _).mpr ⟨j, rfl, hj⟩⟩

/-- After a call, an error still comes first just when it did before; a call that returns NULL has
met it. -/
theorem errorFirst_of_call (h : ErrorFirst (callOf s q).stream (callOf s q).reads ∨
    (callOf s q).ret = 0) : ErrorFirst s.stream s.reads := by
  rw [ret_eq_zero] at h
  change ErrorFirst (streamAfter s.stream (takenBy s q).stop) (takenBy s q).reads ∨ _ at h
  rw [takenBy] at h
  rcases taken_cases (room q.count) s.stream s.reads with
    ⟨herr, htaken, hafter⟩ | ⟨_, _, htaken, hafter⟩ | ⟨herr, heof, htaken, hafter⟩
  · exact .inl herr
  · rw [hafter, htaken] at h
    exact h.resolve_right nofun
  · have herrors := takeLine_errors (room q.count) s.reads
    rw [hafter, htaken] at h
    refine .inr ⟨heof, ?_⟩
    cases hstop : (takeLine (room q.count) s.reads).stop with
    | failed =>
      rw [hstop] at herrors
      exact ⟨_, herrors⟩
    | ended =>
      rw [hstop] at h
      rcases h with (herr' | ⟨heof', _⟩) | hfailed
      · exact absurd (herr'.symm.trans herr) nofun
      · exact absurd heof' nofun
      · cases hfailed
    | done =>
      rw [hstop] at h herrors
      rcases h with (herr' | ⟨_, j, hj⟩) | hfailed
      · exact absurd (herr'.symm.trans herr) nofun
      · exact ⟨_, (herrors _).mpr ⟨j, rfl, hj⟩⟩
      · cases hfailed

/-- Each call on the way to an error brings it nearer. -/
theorem loopEnds_of_errorAt {s : State} (herr : ferror s.stream = false)
    (heof : feof s.stream = false) (hk : ErrorAt s.reads k) (qs : Nat → Request) :
    LoopEnds s qs := by
  induction k using Nat.strongRecOn generalizing s qs with
  | ind k ih =>
    have htaken : takenBy s (qs 0) = takeLine (room (qs 0).count) s.reads := by
      rw [takenBy, taken, herr, heof]
      rfl
    have hafter : ∀ stop, streamAfter s.stream stop = flagged s.stream stop := by
      intro stop
      rw [streamAfter, herr, heof]
      rfl
    have herrors := takeLine_errors (room (qs 0).count) s.reads
    cases hstop : (takeLine (room (qs 0).count) s.reads).stop with
    | failed =>
      have hnull : (callOf s (qs 0)).ret = 0 := by
        rw [ret_eq_zero, htaken, hstop]
      exact ⟨1, _, exec_singleton s (qs 0), _,
        List.mem_append_right _ (List.mem_singleton_self _), hnull⟩
    | ended =>
      rw [hstop] at herrors
      exact absurd hk (herrors k)
    | done =>
      rw [hstop] at herrors
      obtain ⟨j, rfl, hj⟩ := (herrors k).mp hk
      have hpos := List.length_pos_of_ne_nil (takeLine_ne_nil (one_le_room (qs 0)) hstop)
      have hstream : (callOf s (qs 0)).stream = s.stream := by
        change streamAfter s.stream (takenBy s (qs 0)).stop = _
        rw [hafter, htaken, hstop]
        rfl
      obtain ⟨n, s', hexec, hnull⟩ := ih j (by omega)
        (s := ⟨(callOf s (qs 0)).stream, (callOf s (qs 0)).reads,
          s.calls ++ [(qs 0, callOf s (qs 0))]⟩)
        (by rwa [hstream]) (by rwa [hstream])
        (by change ErrorAt (takenBy s (qs 0)).reads j; rwa [htaken]) (fun i => qs (i + 1))
      refine ⟨n + 1, s', ?_, hnull⟩
      rw [List.range_succ_eq_map, List.map_cons, exec_cons, step_eq, Option.bind_some,
        List.map_map]
      exact hexec

/-- The loop ends just when an error comes before the end. -/
theorem loopEnds_iff (stream : File) (reads : Reads) (qs : Nat → Request) :
    LoopEnds ⟨stream, reads, []⟩ qs ↔ ErrorFirst stream reads := by
  constructor
  · rintro ⟨n, s', hexec, hnull⟩
    have hinv : (ErrorFirst s'.stream s'.reads → ErrorFirst stream reads) ∧
        ((∃ p ∈ s'.calls, p.2.ret = 0) → ErrorFirst stream reads) := by
      refine inv_of_exec (I := fun s => (ErrorFirst s.stream s.reads → ErrorFirst stream reads) ∧
        ((∃ p ∈ s.calls, p.2.ret = 0) → ErrorFirst stream reads)) (fun s q s' hs _ hstep => ?_)
        ⟨id, fun ⟨_, hp, _⟩ => absurd hp List.not_mem_nil⟩
        (along_of_forall (fun _ _ => trivial) _) hexec
      rw [step_eq] at hstep
      obtain rfl := Option.some.inj hstep
      refine ⟨fun h => hs.1 (errorFirst_of_call (.inl h)), ?_⟩
      rintro ⟨p, hp, hret⟩
      rcases List.mem_append.mp hp with hp | hp
      · exact hs.2 ⟨p, hp, hret⟩
      · rw [List.mem_singleton.mp hp] at hret
        exact hs.1 (errorFirst_of_call (.inr hret))
    exact hinv.2 hnull
  · intro h
    cases herr : ferror stream with
    | true =>
      refine ⟨1, _, exec_singleton _ (qs 0), _, List.mem_singleton_self _, ?_⟩
      rw [ret_eq_zero, takenBy, taken, if_pos herr]
    | false =>
      obtain ⟨heof, k, hk⟩ := h.resolve_left (Bool.eq_false_iff.mp herr)
      exact loopEnds_of_errorAt herr heof hk qs

end Loop

/-- A call tells what it met unless it is made at the end, and the loop over the lines ends just
when an error comes first. -/
theorem fgets_told_iff (stream : File) (reads : Reads) :
    (∀ qs, Along step ToldAt ⟨stream, reads, []⟩ qs ↔
      Along step (fun s _ => ¬AtEnd s) ⟨stream, reads, []⟩ qs) ∧
    (∀ qs, LoopEnds ⟨stream, reads, []⟩ qs ↔ ErrorFirst stream reads) := by
  refine ⟨fun qs => ?_, fun qs => loopEnds_iff stream reads qs⟩
  exact along_congr (I := fun _ => True) (fun s q _ => toldAt_iff s q) (fun _ _ _ _ _ _ => trivial)
    trivial

theorem not_errorFirst_deliver {stream : File} (h : ferror stream = false) (bs : List UInt8) :
    ¬ErrorFirst stream (deliver bs) := by
  rintro (herr | ⟨_, n, hnone, _⟩)
  · exact absurd (herr.symm.trans h) nofun
  · cases hnone


/-- A buffer of 4 bytes at 16. -/
def buffer : Request where
  mem := fun _ => some 0
  str := 16
  count := 4
  two_le := by decide
  accessible _ _ := rfl
  nonnull := by decide

/-- `"a\nb\xff"` in two lines, the last one without a newline. -/
theorem fgets_keeps_stream_two : ∃ s,
    exec step ⟨stdinObj, deliver [97, 10, 98, 255], []⟩ [buffer, buffer] = some s ∧
      s.calls.map (fun p => p.2.line) = [[97, 10], [98, 255]] ∧ s.stored = [97, 10, 98, 255] := by
  obtain ⟨s, hexec, _, _, _, hall, _⟩ :=
    fgets_keeps_stream [97, 10, 98, 255] stdinObj (by decide) [buffer, buffer]
  obtain rfl := Option.some.inj hexec
  exact ⟨_, rfl, rfl, hall rfl⟩

/-- The empty stream is not told apart from a line, and a loop over its lines goes on for ever. -/
theorem fgets_at_end :
    (∃ c, fgets buffer.mem buffer.str buffer.count stdinObj (deliver []) = some c ∧
      c.line = [] ∧ feof c.stream = true ∧ c.ret = buffer.str) ∧
    ¬ToldAt ⟨stdinObj, deliver [], []⟩ buffer ∧
    ¬LoopEnds ⟨stdinObj, deliver [], []⟩ fun _ => buffer := by
  refine ⟨⟨_, rfl, rfl, rfl, rfl⟩, fun h => ?_, fun h => ?_⟩
  · exact (toldAt_iff _ _).mp h ⟨rfl, .inr rfl⟩
  · exact not_errorFirst_deliver rfl [] ((loopEnds_iff _ _ _).mp h)

end LineRuns
