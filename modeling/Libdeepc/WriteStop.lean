import Libdeepc.FormatLaw

/-!
# Writes that fail

The formatter runs the list of writes of its format up to the first one that the
descriptor does not take whole. What happens then depends on that write: if the
code tests `rc` behind it the output ends there, and otherwise one more write
follows.
-/

namespace WriteStop

open CString MachineInt Memory PrintfWrite PrintfPlan PrintfShared PrintfSink IntRendering
open FormatGrammar FormatParser FormatMeaning FormatLaw

/-- The writes of a format; `lit` are the literal bytes that are still held back. -/
def formatWrites : List UInt8 → Env → List Piece → List Chunk
  | lit, _, [] => [tested lit]
  | lit, env, .literal c _ :: ps =>
    formatWrites (lit ++ [c]) { env with out := env.out ++ [c] } ps
  | lit, env, .directive d :: ps =>
    tested lit :: (directiveWrites d env ++
      formatWrites [] ((runDirective codeLength d env).getD env) ps)

/-- The format ends at a `%` that begins no directive. -/
def rejects : Tail → Bool
  | .stop _ => false
  | .invalid _ _ _ _ _ => true

/-- write(2) takes no more than it is given. -/
def Bounded (kernel : Kernel) : Prop :=
  ∀ calls bytes n, kernel calls bytes = .ok n → n ≤ bytes.length

/-- What the descriptor has taken of the calls behind `before`. -/
def accepted (kernel : Kernel) : List (List UInt8) → List (List UInt8) → List UInt8
  | _, [] => []
  | before, c :: calls =>
    (match kernel before c with
      | .ok n => c.take n
      | .error _ => []) ++ accepted kernel (before ++ [c]) calls

/-- Every call has been taken whole. -/
def Whole (kernel : Kernel) (calls : List (List UInt8)) : Prop :=
  ∀ before c after, calls = before ++ c :: after → kernel before c = .ok c.length

def Failed (kernel : Kernel) (calls : List (List UInt8)) : Prop :=
  ∃ before c after e, calls = before ++ c :: after ∧ kernel before c = .error e

/-- A write has failed, or the output has reached an invalid directive. -/
def Erred (kernel : Kernel) (tail : Tail) (calls : List (List UInt8)) : Prop :=
  Failed kernel calls ∨ rejects tail = true ∧ Whole kernel calls

/-- The output ends with the first write that is not taken whole, and the result tells how much
of it has been taken. -/
structure StopsAtFailure (kernel : Kernel) (tail : Tail) (out : List UInt8)
    (calls : List (List UInt8)) (ret : Int) : Prop where
  last : ∀ before c after, calls = before ++ c :: after → kernel before c ≠ .ok c.length →
    after = []
  isPrefix : accepted kernel [] calls <+: out
  erred : Erred kernel tail calls → ret = -1
  count : ¬Erred kernel tail calls → ret = (accepted kernel [] calls).length

/-- The first write that is not taken whole is tested, and an `int` holds the number of bytes
taken, where there is no error. -/
def Clean (kernel : Kernel) (tail : Tail) : List (List UInt8) → List Chunk → Prop
  | calls, [] => rejects tail = true ∨ calls.flatten.length < 2 ^ 31
  | calls, c :: cs =>
    if c.bytes = [] then Clean kernel tail calls cs
    else match kernel calls c.bytes with
      | .error _ => c.follow = []
      | .ok n =>
        if n = c.bytes.length then Clean kernel tail (calls ++ [c.bytes]) cs
        else c.follow = [] ∧ calls.flatten.length + n < 2 ^ 31

section Calls

variable {kernel : Kernel} {tail : Tail} {out : List UInt8} {calls : List (List UInt8)}
  {c : List UInt8}

theorem split_concat {before after : List (List UInt8)} {x : List UInt8}
    (h : calls ++ [c] = before ++ x :: after) :
    (before = calls ∧ x = c ∧ after = []) ∨
      ∃ rest, after = rest ++ [c] ∧ calls = before ++ x :: rest := by
  rcases List.eq_nil_or_concat after with rfl | ⟨rest, b, rfl⟩
  · obtain ⟨hcalls, hc⟩ := List.append_inj' h rfl
    exact Or.inl ⟨hcalls.symm, (List.cons.inj hc).1.symm, rfl⟩
  · have hcut : calls ++ [c] = (before ++ x :: rest) ++ [b] := by simpa using h
    obtain ⟨hcalls, hc⟩ := List.append_inj' hcut rfl
    exact Or.inr ⟨rest, by simp [(List.cons.inj hc).1], hcalls⟩

theorem whole_nil : Whole kernel [] := by
  intro before c after h
  simp at h

theorem whole_concat (h : Whole kernel calls) (hc : kernel calls c = .ok c.length) :
    Whole kernel (calls ++ [c]) := by
  intro before x after hsplit
  rcases split_concat hsplit with ⟨rfl, rfl, _⟩ | ⟨rest, _, hcalls⟩
  · exact hc
  · exact h before x rest hcalls

theorem accepted_append (before ds : List (List UInt8)) :
    accepted kernel before (calls ++ ds) =
      accepted kernel before calls ++ accepted kernel (before ++ calls) ds := by
  induction calls generalizing before with
  | nil => simp [accepted]
  | cons c calls ih => simp [accepted, ih]

theorem accepted_whole (h : Whole kernel calls) : accepted kernel [] calls = calls.flatten := by
  induction calls using List.reverseRecOn with
  | nil => rfl
  | append_singleton calls c ih =>
    have hc : kernel calls c = .ok c.length := h calls c [] rfl
    have hcalls : Whole kernel calls := by
      intro before x after hsplit
      exact h before x (after ++ [c]) (by rw [hsplit]; simp)
    rw [accepted_append, ih hcalls]
    simp [accepted, hc]

theorem not_failed (h : Whole kernel calls) : ¬Failed kernel calls := by
  rintro ⟨before, c, after, e, hsplit, herr⟩
  rw [h before c after hsplit] at herr
  cases herr

/-- All writes have been taken whole. -/
theorem stops_whole (h : Whole kernel calls) (hout : calls.flatten <+: out) (ret : Int) :
    StopsAtFailure kernel tail out calls ret ↔
      ret = if rejects tail = true then -1 else (calls.flatten.length : Int) := by
  have herred : Erred kernel tail calls ↔ rejects tail = true := by
    constructor
    · rintro (hfailed | ⟨hrejects, _⟩)
      · exact absurd hfailed (not_failed h)
      · exact hrejects
    · intro hrejects
      exact Or.inr ⟨hrejects, h⟩
  have haccepted := accepted_whole h
  constructor
  · intro hstops
    split
    · next hrejects => exact hstops.erred (herred.mpr hrejects)
    · next hrejects =>
      rw [← haccepted]
      exact hstops.count (mt herred.mp hrejects)
  · rintro rfl
    constructor
    · intro before c after hsplit hnot
      exact absurd (h before c after hsplit) hnot
    · rwa [haccepted]
    · intro he
      rw [if_pos (herred.mp he)]
    · intro he
      rw [if_neg (mt herred.mpr he), haccepted]

/-- The last write is the first that is not taken whole. -/
theorem last_concat (h : Whole kernel calls) (before : List (List UInt8)) (x : List UInt8)
    (after : List (List UInt8)) (hsplit : calls ++ [c] = before ++ x :: after)
    (hnot : kernel before x ≠ .ok x.length) : before = calls ∧ x = c ∧ after = [] := by
  rcases split_concat hsplit with hlast | ⟨rest, _, hcalls⟩
  · exact hlast
  · exact absurd (h before x rest hcalls) hnot

theorem stops_short (h : Whole kernel calls) {n : Nat} (hc : kernel calls c = .ok n)
    (hn : n < c.length) (hout : calls.flatten ++ c <+: out) (ret : Int) :
    StopsAtFailure kernel tail out (calls ++ [c]) ret ↔ ret = (calls.flatten.length + n : Nat) := by
  have hshort : kernel calls c ≠ .ok c.length := by
    rw [hc]
    intro heq
    have := Except.ok.inj heq
    omega
  have haccepted : accepted kernel [] (calls ++ [c]) = calls.flatten ++ c.take n := by
    rw [accepted_append, accepted_whole h]
    simp [accepted, hc]
  have hnot : ¬Erred kernel tail (calls ++ [c]) := by
    rintro (⟨before, x, after, e, hsplit, herr⟩ | ⟨_, hwhole⟩)
    · obtain ⟨rfl, rfl, _⟩ := last_concat h before x after hsplit (by rw [herr]; simp)
      rw [hc] at herr
      cases herr
    · exact hshort (hwhole calls c [] rfl)
  have hlen : (accepted kernel [] (calls ++ [c])).length = calls.flatten.length + n := by
    rw [haccepted, List.length_append, List.length_take, Nat.min_eq_left hn.le]
  constructor
  · intro hstops
    rw [hstops.count hnot, hlen]
  · rintro rfl
    constructor
    · intro before x after hsplit hx
      exact (last_concat h before x after hsplit hx).2.2
    · rw [haccepted]
      exact ((List.prefix_append_right_inj _).mpr (List.take_prefix n c)).trans hout
    · intro he
      exact absurd he hnot
    · intro _
      rw [hlen]

theorem stops_failed (h : Whole kernel calls) {e : Int} (hc : kernel calls c = .error e)
    (hout : calls.flatten <+: out) (ret : Int) :
    StopsAtFailure kernel tail out (calls ++ [c]) ret ↔ ret = -1 := by
  have haccepted : accepted kernel [] (calls ++ [c]) = calls.flatten := by
    rw [accepted_append, accepted_whole h]
    simp [accepted, hc]
  have herred : Erred kernel tail (calls ++ [c]) := Or.inl ⟨calls, c, [], e, rfl, hc⟩
  constructor
  · intro hstops
    exact hstops.erred herred
  · rintro rfl
    constructor
    · intro before x after hsplit hx
      exact (last_concat h before x after hsplit hx).2.2
    · rwa [haccepted]
    · intro _
      rfl
    · intro he
      exact absurd herred he

/-- One more write behind the first that is not taken whole. -/
theorem not_stops {d : List UInt8} (hc : kernel calls c ≠ .ok c.length) (ret : Int) :
    ¬StopsAtFailure kernel tail out (calls ++ [c] ++ [d]) ret := by
  intro hstops
  have hnil := hstops.last calls c [d] (by simp) hc
  cases hnil

end Calls

section Run

variable {kernel : Kernel} {tail : Tail} {out : List UInt8} {calls : List (List UInt8)}
  {errno : Int}

/-- The state behind calls that have all been taken whole. -/
def infoAt (errno : Int) (calls : List (List UInt8)) : Info Fd :=
  ⟨UInt64.ofNat calls.flatten.length, .ok, errno, ⟨calls⟩⟩

/-- The result of `vprintf_shared` when the writes have left this state. -/
def result (tail : Tail) (i : Info Fd) : Int :=
  if i.rc = .err ∨ i.rc = .ok ∧ rejects tail = true then -1 else toSigned 32 i.written.toNat

theorem writeFd_calls (kernel : Kernel) (i : Info Fd) {bytes : List UInt8} (h : bytes ≠ []) :
    ∃ i', writeFd kernel i bytes = some i' ∧ i'.sink.calls = i.sink.calls ++ [bytes] := by
  have hlen : bytes.length ≠ 0 := mt List.length_eq_zero_iff.mp h
  simp only [writeFd, hlen, if_false]
  split
  · exact ⟨_, rfl, rfl⟩
  · split <;> exact ⟨_, rfl, rfl⟩

theorem writeFd_isSome (kernel : Kernel) (i : Info Fd) (bytes : List UInt8) :
    ∃ i', writeFd kernel i bytes = some i' := by
  by_cases h : bytes = []
  · exact ⟨i, by rw [h]; rfl⟩
  · obtain ⟨i', hi', _⟩ := writeFd_calls kernel i h
    exact ⟨i', hi'⟩

theorem runChunks_isSome (kernel : Kernel) (cs : List Chunk) (i : Info Fd) :
    ∃ i', runChunks (writeFd kernel) cs i = some i' := by
  induction cs generalizing i with
  | nil => exact ⟨i, rfl⟩
  | cons c cs ih =>
    obtain ⟨i₁, hi₁⟩ := writeFd_isSome kernel i c.bytes
    simp only [runChunks, hi₁, Option.bind_eq_bind, Option.bind_some]
    split
    · exact ih i₁
    · exact writeFd_isSome kernel i₁ c.follow

theorem writeFd_whole {bytes : List UInt8} (hb : bytes ≠ [])
    (hc : kernel calls bytes = .ok bytes.length) :
    writeFd kernel (infoAt errno calls) bytes = some (infoAt errno (calls ++ [bytes])) := by
  have hlen : bytes.length ≠ 0 := mt List.length_eq_zero_iff.mp hb
  simp [writeFd, infoAt, hlen, hc, UInt64.ofNat_add]

theorem writeFd_short {bytes : List UInt8} {n : Nat} (hc : kernel calls bytes = .ok n)
    (hn : n < bytes.length) :
    writeFd kernel (infoAt errno calls) bytes =
      some ⟨UInt64.ofNat (calls.flatten.length + n), .ended, errno, ⟨calls ++ [bytes]⟩⟩ := by
  have hlen : bytes.length ≠ 0 := by omega
  simp [writeFd, infoAt, hlen, hc, hn, UInt64.ofNat_add]

theorem writeFd_failed {bytes : List UInt8} {e : Int} (hb : bytes ≠ [])
    (hc : kernel calls bytes = .error e) :
    writeFd kernel (infoAt errno calls) bytes =
      some ⟨UInt64.ofNat calls.flatten.length, .err, e, ⟨calls ++ [bytes]⟩⟩ := by
  have hlen : bytes.length ≠ 0 := mt List.length_eq_zero_iff.mp hb
  simp [writeFd, infoAt, hlen, hc]

theorem toSigned_eq_iff (n : Nat) :
    toSigned 32 (UInt64.ofNat n).toNat = n ↔ n < 2 ^ 31 := by
  rw [toSigned_count]
  split <;> omega

/-- Behind an incomplete write nothing may follow. -/
theorem incomplete_stops_iff {bytes follow : List UInt8} {i₁ i : Info Fd}
    (hnot : kernel calls bytes ≠ .ok bytes.length) (hcalls : i₁.sink.calls = calls ++ [bytes])
    (hi : writeFd kernel i₁ follow = some i) :
    StopsAtFailure kernel tail out i.sink.calls (result tail i) ↔
      follow = [] ∧ StopsAtFailure kernel tail out (calls ++ [bytes]) (result tail i₁) := by
  by_cases hnil : follow = []
  · rw [hnil] at hi
    obtain rfl := Option.some.inj hi
    rw [hcalls]
    exact (and_iff_right hnil).symm
  · obtain ⟨i', hi', hcalls'⟩ := writeFd_calls kernel i₁ hnil
    obtain rfl := Option.some.inj (hi.symm.trans hi')
    rw [hcalls', hcalls]
    constructor
    · intro hstops
      exact absurd hstops (not_stops hnot _)
    · rintro ⟨h, _⟩
      exact absurd h hnil

/-- The run of a list of writes does what it should where the list is clean for the kernel. -/
theorem runChunks_stops_iff (hk : Bounded kernel) {cs : List Chunk} (h : Whole kernel calls)
    (hout : calls.flatten ++ bytesOf cs = out) {i : Info Fd}
    (hrun : runChunks (writeFd kernel) cs (infoAt errno calls) = some i) :
    StopsAtFailure kernel tail out i.sink.calls (result tail i) ↔ Clean kernel tail calls cs := by
  induction cs generalizing calls with
  | nil =>
    obtain rfl := Option.some.inj hrun
    have hprefix : calls.flatten <+: out := by
      rw [← hout]
      exact List.prefix_append _ _
    rw [show (infoAt errno calls).sink.calls = calls from rfl, stops_whole h hprefix, Clean]
    cases hrejects : rejects tail with
    | true => simp [result, infoAt, hrejects]
    | false =>
      have hcount := toSigned_eq_iff calls.flatten.length
      simpa [result, infoAt, hrejects] using hcount
  | cons c cs ih =>
    rw [runChunks] at hrun
    rw [bytesOf_cons] at hout
    by_cases hb : c.bytes = []
    · have hempty : writeFd kernel (infoAt errno calls) [] = some (infoAt errno calls) := rfl
      have hok : (infoAt errno calls).rc = .ok := rfl
      rw [hb, hempty, Option.bind_eq_bind, Option.bind_some, if_pos hok] at hrun
      rw [hb, List.nil_append] at hout
      rw [Clean, if_pos hb]
      exact ih h hout hrun
    · have hprefix : calls.flatten ++ c.bytes <+: out := by
        rw [← hout, ← List.append_assoc]
        exact List.prefix_append _ _
      rw [Clean, if_neg hb]
      cases hc : kernel calls c.bytes with
      | error e =>
        have hnot : kernel calls c.bytes ≠ .ok c.bytes.length := by
          rw [hc]
          simp
        rw [writeFd_failed hb hc, Option.bind_eq_bind, Option.bind_some,
          if_neg VprintRet.noConfusion] at hrun
        rw [incomplete_stops_iff hnot rfl hrun,
          stops_failed h hc ((List.prefix_append _ _).trans hprefix)]
        exact and_iff_left rfl
      | ok n =>
        have hle := hk calls c.bytes n hc
        by_cases hn : n = c.bytes.length
        · rw [hn] at hc
          have hok : (infoAt errno (calls ++ [c.bytes])).rc = .ok := rfl
          rw [writeFd_whole hb hc, Option.bind_eq_bind, Option.bind_some, if_pos hok] at hrun
          simp only [hn, if_true]
          exact ih (whole_concat h hc) (by simpa using hout) hrun
        · have hlt : n < c.bytes.length := by omega
          have hnot : kernel calls c.bytes ≠ .ok c.bytes.length := by
            rw [hc]
            exact fun heq => hn (Except.ok.inj heq)
          rw [writeFd_short hc hlt, Option.bind_eq_bind, Option.bind_some,
            if_neg VprintRet.noConfusion] at hrun
          have hret : result tail ⟨UInt64.ofNat (calls.flatten.length + n), .ended, errno,
              ⟨calls ++ [c.bytes]⟩⟩ =
                toSigned 32 (UInt64.ofNat (calls.flatten.length + n)).toNat := by
            simp [result]
          simp only [hn, if_false]
          rw [incomplete_stops_iff hnot rfl hrun, stops_short h hc hlt hprefix, hret,
            toSigned_eq_iff]

theorem writeFd_written (hk : Bounded kernel) {info i : Info Fd} {bytes : List UInt8}
    (h : writeFd kernel info bytes = some i) (hok : i.rc = .ok) :
    i.written = info.written + UInt64.ofNat bytes.length := by
  by_cases hb : bytes = []
  · subst hb
    obtain rfl := Option.some.inj h
    simp
  · have hlen : bytes.length ≠ 0 := mt List.length_eq_zero_iff.mp hb
    simp only [writeFd, hlen, if_false] at h
    cases hc : kernel info.sink.calls bytes with
    | error e =>
      rw [hc] at h
      obtain rfl := Option.some.inj h
      cases hok
    | ok n =>
      have hle := hk info.sink.calls bytes n hc
      rw [hc] at h
      by_cases hn : n < bytes.length
      · simp only [hn, if_true, Option.some.injEq] at h
        subst h
        cases hok
      · obtain rfl : n = bytes.length := by omega
        simp only [hn, if_false, Option.some.injEq] at h
        subst h
        rfl

theorem runChunks_written (hk : Bounded kernel) {cs : List Chunk} {info i : Info Fd}
    (h : runChunks (writeFd kernel) cs info = some i) (hok : i.rc = .ok) :
    i.written = info.written + UInt64.ofNat (bytesOf cs).length := by
  induction cs generalizing info with
  | nil =>
    obtain rfl := Option.some.inj h
    simp
  | cons c cs ih =>
    obtain ⟨i₁, hi₁, hrest⟩ := Option.bind_eq_some_iff.mp h
    by_cases hrc : i₁.rc = .ok
    · rw [if_pos hrc] at hrest
      rw [ih hrest, writeFd_written hk hi₁ hrc, bytesOf_cons, List.length_append,
        UInt64.ofNat_add, UInt64.add_assoc]
    · rw [if_neg hrc] at hrest
      exact absurd hok ((staysStopped_fd kernel).stopped i₁ c.follow i hrc hrest)

end Run

section Loop

variable {kernel : Kernel}

/-- What `vprintf_shared` does behind its loop. -/
def closing (kernel : Kernel) (s : SharedState Fd) : Option (Info Fd) :=
  if s.st.info.rc = .ok then flushLiteral (writeFd kernel) s else some s.st.info

/-- The state that the loop ends in, next to the one that the writes leave. -/
structure Ends (kernel : Kernel) (tail : Tail) (i : Info Fd) (s : SharedState Fd) : Prop where
  closes : ∃ j, closing kernel s = some j ∧ j.written = i.written ∧ j.sink = i.sink ∧
    j.rc = if i.rc = .ok ∧ rejects tail = true then .err else i.rc

/-- A stopped output is left as it is. -/
theorem ends_stopped {tail : Tail} {i : Info Fd} (h : i.rc ≠ .ok) {s : SharedState Fd}
    (hs : s.st.info = i) : Ends kernel tail i s := by
  subst hs
  exact ⟨s.st.info, if_neg h, rfl, rfl, (if_neg fun hboth => h hboth.1).symm⟩

/-- The end of a format: the window goes out, and an invalid directive is an error. -/
theorem sharedLoop_tail {tail : Tail} {args : List (BitVec 64)} (hmatch : tail.Matches args)
    {info i : Info Fd} (hok : info.rc = .ok) (mem : Mem) (lit : List UInt8)
    (hi : writeFd kernel info lit = some i) (fuel : Nat) :
    ∃ s, sharedLoop (writeFd kernel) (fuel + 2) ⟨⟨info, args, mem⟩, lit ++ tail.text, tail.text⟩ =
      some s ∧ Ends kernel tail i s := by
  cases tail with
  | stop rest =>
    refine ⟨⟨⟨info, args, mem⟩, lit ++ 0 :: rest, 0 :: rest⟩, ?_, i, ?_, rfl, rfl, ?_⟩
    · simp [sharedLoop, hok, Tail.text]
    · rw [closing, if_pos hok, flushLiteral_eq (staysStopped_fd kernel), hi]
    · simp [rejects]
  | invalid l u ends no inside =>
    rw [Tail.text, sharedLoop_flush (staysStopped_fd kernel) hok args mem lit _ hi]
    by_cases hrc : i.rc = .ok
    · obtain ⟨p, hparse, hp⟩ := parse_rejected inside ends no hmatch i.errno
      have hwrite : writeDirective (writeFd kernel) ⟨i, args, mem⟩
          (lit ++ byte '%' :: (l.text ++ u)) p =
            some ⟨⟨{ i with rc := .err, errno := p.errno }, p.args, mem⟩,
              lit ++ byte '%' :: (l.text ++ u), p.format⟩ := by
        simp [writeDirective, hp.rc]
      have herr : ({ i with rc := .err, errno := p.errno } : Info Fd).rc ≠ .ok :=
        VprintRet.noConfusion
      rw [if_pos hrc, hparse, Option.bind_some, hwrite, Option.bind_some,
        sharedLoop_stopped herr fuel]
      refine ⟨_, rfl, _, if_neg herr, rfl, rfl, ?_⟩
      simp [hrc, rejects]
    · rw [if_neg hrc, sharedLoop_stopped hrc fuel]
      exact ⟨_, rfl, ends_stopped hrc rfl⟩

/-- The loop runs the writes of the format. -/
theorem sharedLoop_ends (hk : Bounded kernel) {tail : Tail} {ps : List Piece} {env env' : Env}
    {lit sent : List UInt8} (hout : env.out = sent ++ lit) {info i : Info Fd}
    (hok : info.rc = .ok) (hwritten : info.written = UInt64.ofNat sent.length)
    (hrun : runPieces codeLength env ps = some env') (hmatch : tail.Matches env'.args)
    (hi : runChunks (writeFd kernel) (formatWrites lit env ps) info = some i) {fuel : Nat}
    (hfuel : ps.length + 2 ≤ fuel) :
    ∃ s, sharedLoop (writeFd kernel) fuel ⟨⟨info, env.args, env.mem⟩,
        lit ++ (piecesText ps ++ tail.text), piecesText ps ++ tail.text⟩ = some s ∧
      Ends kernel tail i s := by
  have hw := staysStopped_fd kernel
  induction ps generalizing env lit sent info fuel with
  | nil =>
    obtain rfl := Option.some.inj hrun
    obtain ⟨fuel, rfl⟩ := Nat.exists_eq_add_of_le hfuel
    rw [formatWrites, runChunks_tested hw] at hi
    have hend := sharedLoop_tail hmatch hok env.mem lit hi fuel
    rwa [Nat.add_comm fuel 2] at hend
  | cons pc ps ih =>
    obtain ⟨env₁, hpiece, hrest⟩ := Option.bind_eq_some_iff.mp hrun
    obtain ⟨fuel, rfl⟩ : ∃ f, fuel = f + 1 := ⟨fuel - 1, by omega⟩
    have hfuel' : ps.length + 2 ≤ fuel := by
      rw [List.length_cons] at hfuel
      omega
    cases pc with
    | literal c plain =>
      obtain rfl := Option.some.inj hpiece
      obtain ⟨s, hloop, hends⟩ := ih (show
        ({ env with out := env.out ++ [c] } : Env).out = sent ++ (lit ++ [c]) by
          rw [hout, List.append_assoc]) hok hwritten hrest hi hfuel'
      refine ⟨s, ?_, hends⟩
      rw [← hloop]
      simp [sharedLoop, hok, piecesText, Piece.text, plain.1, plain.2]
    | directive d =>
      have hd : runDirective codeLength d env = some env₁ := hpiece
      have htext : piecesText (.directive d :: ps) ++ tail.text =
          byte '%' :: (d.text ++ (piecesText ps ++ tail.text)) := by
        simp [piecesText, Piece.text]
      have hterm : Terminated (piecesText ps ++ tail.text) :=
        terminated_append (terminated_tail tail) _
      rw [formatWrites, hd, Option.getD_some] at hi
      obtain ⟨i₁, hi₁, hi⟩ := Option.bind_eq_some_iff.mp hi
      rw [htext, sharedLoop_flush hw hok env.args env.mem lit _ hi₁]
      by_cases hrc : i₁.rc = .ok
      · rw [if_pos hrc] at hi ⊢
        obtain ⟨⟨L, args⟩, hlayout, _⟩ := Option.bind_eq_some_iff.mp hd
        obtain ⟨spec, hparse, hL, hs, hlen, hconv⟩ :=
          parse_directive d hterm env.args i₁.errno hlayout
        have hwritten₁ : i₁.written = UInt64.ofNat env.out.length := by
          rw [writeFd_written hk hi₁ hrc, hwritten, hout, List.length_append, UInt64.ofNat_add]
          rfl
        have hwrite := vprintfWriteSpec_chunks hw hd hlayout hL hs hlen hconv hrc hwritten₁
        rw [runChunks_append hw hrc] at hi
        obtain ⟨i₂, hi₂, hi⟩ := Option.bind_eq_some_iff.mp hi
        have hinfo : ({ i₁ with rc := .ok } : Info Fd) = i₁ := by rw [← hrc]
        rw [hi₂, Option.map_some] at hwrite
        rw [hparse, Option.bind_some]
        simp only [writeDirective, ne_eq, not_true, if_false, hinfo, hwrite, Option.bind_eq_bind,
          Option.bind_some]
        by_cases hrc₂ : i₂.rc = .ok
        · rw [if_pos hrc₂] at hi
          have hwritten₂ : i₂.written = UInt64.ofNat env₁.out.length := by
            rw [runChunks_written hk hi₂ hrc₂, hwritten₁, runDirective_out hd, List.length_append,
              UInt64.ofNat_add]
          simp only [hrc₂, not_true, if_false, Option.bind_some]
          exact ih (show env₁.out = env₁.out ++ [] from (List.append_nil _).symm) hrc₂
            hwritten₂ hrest hi hfuel'
        · rw [if_neg hrc₂] at hi
          obtain rfl := Option.some.inj hi
          obtain ⟨fuel, rfl⟩ : ∃ f, fuel = f + 1 := ⟨fuel - 1, by omega⟩
          simp only [hrc₂, not_false_eq_true, if_true, Option.bind_some]
          rw [sharedLoop_stopped hrc₂]
          exact ⟨_, rfl, ends_stopped hrc₂ rfl⟩
      · rw [if_neg hrc] at hi ⊢
        obtain rfl := Option.some.inj hi
        obtain ⟨fuel, rfl⟩ : ∃ f, fuel = f + 1 := ⟨fuel - 1, by omega⟩
        rw [sharedLoop_stopped hrc]
        exact ⟨_, rfl, ends_stopped hrc rfl⟩

end Loop

section Law

theorem bytesOf_formatWrites {ps : List Piece} {env env' : Env} {lit sent : List UInt8}
    (hout : env.out = sent ++ lit) (hrun : runPieces codeLength env ps = some env') :
    env'.out = sent ++ bytesOf (formatWrites lit env ps) := by
  induction ps generalizing env lit sent with
  | nil =>
    obtain rfl := Option.some.inj hrun
    simp [formatWrites, hout]
  | cons pc ps ih =>
    obtain ⟨env₁, hpiece, hrest⟩ := Option.bind_eq_some_iff.mp hrun
    cases pc with
    | literal c plain =>
      obtain rfl := Option.some.inj hpiece
      exact ih (by rw [hout, List.append_assoc]) hrest
    | directive d =>
      have hd : runDirective codeLength d env = some env₁ := hpiece
      have htail := ih (show env₁.out = env₁.out ++ [] from (List.append_nil _).symm) hrest
      rw [htail, runDirective_out hd, hout, formatWrites, hd]
      simp

/-- A call of `vfprintf` makes the writes of its format. -/
theorem vfprintf_writes {kernel : Kernel} (hk : Bounded kernel) {ps : List Piece} {tail : Tail}
    {args : List (BitVec 64)} {mem : Mem} {env' : Env}
    (hrun : runPieces codeLength ⟨args, mem, []⟩ ps = some env') (hmatch : tail.Matches env'.args)
    (errno : Int) :
    ∃ i r, runChunks (writeFd kernel) (formatWrites [] ⟨args, mem, []⟩ ps) (infoAt errno []) =
        some i ∧
      vfprintf kernel (piecesText ps ++ tail.text) args mem errno = some r ∧
      r.st.info.sink = i.sink ∧ r.ret = result tail i := by
  obtain ⟨i, hi⟩ := runChunks_isSome kernel (formatWrites [] ⟨args, mem, []⟩ ps) (infoAt errno [])
  have hlen := length_le_piecesText ps
  have hpos : 1 ≤ tail.text.length := List.length_pos_of_mem (terminated_tail tail)
  obtain ⟨s, hloop, hends⟩ := sharedLoop_ends hk
    (show (Env.mk args mem []).out = [] ++ [] from rfl) rfl rfl hrun hmatch hi
    (show ps.length + 2 ≤ (piecesText ps ++ tail.text).length + 1 by
      rw [List.length_append]
      omega)
  obtain ⟨j, hclose, hwritten, hsink, hrc⟩ := hends.closes
  have hshared : vfprintf kernel (piecesText ps ++ tail.text) args mem errno =
      some ⟨if j.rc = .err then -1 else toSigned 32 j.written.toNat, { s.st with info := j }⟩ := by
    have hstart : sharedLoop (writeFd kernel) ((piecesText ps ++ tail.text).length + 1)
        ⟨⟨⟨0, .ok, errno, ⟨[]⟩⟩, args, mem⟩, piecesText ps ++ tail.text,
          piecesText ps ++ tail.text⟩ = some s := hloop
    rw [closing] at hclose
    simp only [vfprintf, vprintfShared, hstart, hclose, Option.bind_eq_bind, Option.bind_some]
  refine ⟨i, _, hi, hshared, hsink, ?_⟩
  rw [result, hrc, hwritten]
  by_cases hok : i.rc = .ok ∧ rejects tail = true
  · simp [hok]
  · simp [hok]

/-- A list whose writes are all tested is clean for every kernel. -/
theorem clean_of_tested {kernel : Kernel} (hk : Bounded kernel) (tail : Tail)
    {calls : List (List UInt8)} {cs : List Chunk} (h : ∀ c ∈ cs, c.follow = [])
    (hlen : calls.flatten.length + (bytesOf cs).length < 2 ^ 31) : Clean kernel tail calls cs := by
  induction cs generalizing calls with
  | nil => exact Or.inr hlen
  | cons c cs ih =>
    have hc := h c List.mem_cons_self
    have hcs : ∀ c ∈ cs, c.follow = [] := fun c hmem => h c (List.mem_cons_of_mem _ hmem)
    rw [bytesOf_cons, List.length_append] at hlen
    rw [Clean]
    split
    · exact ih hcs (by omega)
    · split
      · exact hc
      · next n hn =>
        have hle := hk calls c.bytes n hn
        split
        · refine ih hcs ?_
          simp only [List.flatten_append, List.flatten_singleton, List.length_append]
          omega
        · exact ⟨hc, by omega⟩

/-- `vfprintf` ends its output with the first write that is not taken whole, and tells how much
was taken, if and only if the writes of its format are clean for the kernel. -/
theorem vfprintf_stops_iff (kernel : Kernel) (hk : Bounded kernel) (t : List UInt8)
    (ht : Terminated t) :
    (∃ (ps : List Piece) (tail : Tail), t = piecesText ps ++ tail.text) ∧
    ∀ (ps : List Piece) (tail : Tail) (args : List (BitVec 64)) (mem : Mem) (env' : Env)
      (errno : Int), t = piecesText ps ++ tail.text →
      runPieces codeLength ⟨args, mem, []⟩ ps = some env' → tail.Matches env'.args →
      ∃ r, vfprintf kernel t args mem errno = some r ∧
        (StopsAtFailure kernel tail env'.out r.st.info.sink.calls r.ret ↔
          Clean kernel tail [] (formatWrites [] ⟨args, mem, []⟩ ps)) := by
  refine ⟨exists_pieces ht, ?_⟩
  rintro ps tail args mem env' errno rfl hrun hmatch
  obtain ⟨i, r, hi, hr, hsink, hret⟩ := vfprintf_writes hk hrun hmatch errno
  have hout : env'.out = [] ++ bytesOf (formatWrites [] ⟨args, mem, []⟩ ps) :=
    bytesOf_formatWrites rfl hrun
  refine ⟨r, hr, ?_⟩
  rw [hsink, hret]
  exact runChunks_stops_iff hk whole_nil hout.symm hi

/-- A kernel that takes nothing of its second call. -/
def noneOfSecond : Kernel := fun calls bytes => .ok (if calls.length = 1 then 0 else bytes.length)

/-- `"a%+d"` with the number 7: the sign is not taken, and the digit is not written. -/
theorem vfprintf_stops_iff_cut :
    ∃ r, vfprintf noneOfSecond [97, 37, 43, 100, 0] [7] (fun _ => none) 0 = some r ∧
      StopsAtFailure noneOfSecond (.stop []) [97, 43, 55] r.st.info.sink.calls r.ret := by
  have hk : Bounded noneOfSecond := by
    intro calls bytes n h
    obtain rfl := Except.ok.inj h
    split
    · exact Nat.zero_le _
    · exact le_rfl
  obtain ⟨r, hr, hiff⟩ := (vfprintf_stops_iff noneOfSecond hk [97, 37, 43, 100, 0] (by decide)).2
    [.literal 97 (by decide), .directive plusD] (.stop []) [7] (fun _ => none)
    ⟨[], fun _ => none, [97, 43, 55]⟩ 0 rfl rfl trivial
  refine ⟨r, hr, hiff.mpr (clean_of_tested hk _ ?_ ?_)⟩
  · decide +kernel
  · decide +kernel

/-- A kernel whose first call fails. -/
def firstFails : Kernel := fun calls bytes => if calls = [] then .error 5 else .ok bytes.length

/-- `"%2c"` with the letter x: the padding is not written, and the letter is. -/
theorem letter_after_failed_padding :
    ∃ r, vfprintf firstFails [37, 50, 99, 0] [120] (fun _ => none) 0 = some r ∧
      r.st.info.sink.calls = [[32], [120]] ∧
      ¬StopsAtFailure firstFails (.stop []) [32, 120] r.st.info.sink.calls r.ret := by
  refine ⟨_, rfl, rfl, fun hstops => ?_⟩
  have hnil := hstops.last [] [32] [[120]] rfl (by decide)
  cases hnil

end Law

end WriteStop
