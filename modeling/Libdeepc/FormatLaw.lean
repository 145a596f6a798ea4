import Libdeepc.FormatMeaning
import Libdeepc.Runs

/-!
# The whole-format law

The loop of `vprintf_shared` holds back a window of literal bytes; what is
written and the window together are the output of the pieces passed so far. A
format ends at its terminator or at a `%` that begins no directive. The one thing
that stands between the code and the law is a string that has no NUL: the code
looks for it even where the precision says how far to read.
-/

namespace FormatLaw

open CString MachineInt Memory NumberParsing PrintfWrite PrintfPlan PrintfShared PrintfSink
open IntRendering FormatGrammar FormatParser FormatMeaning Runs

section AnySink

variable {σ : Type} {write : WriteFn σ}

theorem flushLiteral_eq (hw : StaysStopped write) (st : PrintState σ) (lit t : List UInt8) :
    flushLiteral write ⟨st, lit ++ t, t⟩ = write st.info lit := by
  have hsize : (lit ++ t).length - t.length = lit.length := by simp
  rw [flushLiteral, hsize, List.take_left]
  by_cases hnil : lit.length ≠ 0
  · rw [if_pos hnil]
  · rw [if_neg hnil, List.length_eq_zero_iff.mp (not_not.mp hnil), hw.empty]

theorem sharedLoop_stopped {s : SharedState σ} (h : s.st.info.rc ≠ .ok) (fuel : Nat) :
    sharedLoop write (fuel + 1) s = some s := by
  rw [sharedLoop, if_neg h]

/-- At a `%` the window is flushed, and the parser starts behind it if that did not stop. -/
theorem sharedLoop_flush (hw : StaysStopped write) {info i : Info σ} (hok : info.rc = .ok)
    (args : List (BitVec 64)) (mem : Mem) (lit t : List UInt8) (hi : write info lit = some i)
    (fuel : Nat) :
    sharedLoop write (fuel + 1) ⟨⟨info, args, mem⟩, lit ++ byte '%' :: t, byte '%' :: t⟩ =
      if i.rc = .ok then
        (vprintfParseSpec ⟨t, zeroSpec, args, i.errno, .ok⟩).bind fun p =>
          (writeDirective write ⟨i, args, mem⟩ (lit ++ byte '%' :: t) p).bind
            (sharedLoop write fuel)
      else sharedLoop write fuel ⟨⟨i, args, mem⟩, lit ++ byte '%' :: t, byte '%' :: t⟩ := by
  have hflush := flushLiteral_eq hw ⟨info, args, mem⟩ lit (byte '%' :: t)
  have hpercent : byte '%' ≠ 0 := by decide
  rw [hi] at hflush
  simp only [sharedLoop, directiveStep, hok, hflush, hpercent, List.head?_cons, if_true, if_false,
    Option.bind_eq_bind, Option.bind_some, List.tail_cons]
  by_cases hrc : i.rc = .ok
  · simp only [hrc, ne_eq, not_true, if_true, if_false, Option.bind_assoc]
  · simp only [hrc, ne_eq, not_false_eq_true, if_true, if_false, Option.bind_some]

end AnySink

/-- The loop stands in front of `t`, with `env.out` written or in the window. -/
def Window (errno : Int) (env : Env) (t : List UInt8) (s : SharedState (List UInt8)) : Prop :=
  ∃ out lit, env.out = out ++ lit ∧ s = ⟨stateOf errno { env with out := out }, lit ++ t, t⟩

theorem flushLiteral_list {errno : Int} {env : Env} {t : List UInt8}
    {s : SharedState (List UInt8)} (h : Window errno env t s) :
    flushLiteral writeList s = some (infoOf errno env.out) := by
  obtain ⟨out, lit, hout, rfl⟩ := h
  rw [flushLiteral_eq staysStopped_list, writeList_eq, stateOf, emit_infoOf, hout]

/-- At a `%` the window is flushed, and the parser starts behind it. -/
theorem sharedLoop_percent {errno : Int} {env : Env} {t : List UInt8}
    {s : SharedState (List UInt8)} (h : Window errno env (byte '%' :: t) s) (fuel : Nat) :
    sharedLoop writeList (fuel + 1) s =
      (vprintfParseSpec ⟨t, zeroSpec, env.args, errno, .ok⟩).bind fun p =>
        (writeDirective writeList (stateOf errno env) s.startLiteral p).bind
          (sharedLoop writeList fuel) := by
  obtain ⟨out, lit, hout, rfl⟩ := h
  have hwrite : writeList (infoOf errno out) lit = some (infoOf errno env.out) := by
    rw [writeList_eq, emit_infoOf, hout]
  exact (sharedLoop_flush staysStopped_list rfl env.args env.mem lit t hwrite fuel).trans
    (if_pos rfl)

/-- A directive the parser has read is written, and the window begins behind it. -/
theorem writeDirective_parsed (errno : Int) (env : Env) (startLiteral u : List UInt8)
    (spec : VprintSpec) (args : List (BitVec 64)) :
    writeDirective writeList (stateOf errno env) startLiteral ⟨u, spec, args, errno, .ok⟩ =
      (vprintfWriteSpec writeList (stateOf errno { env with args := args }) spec).bind fun st =>
        if st.info.rc ≠ .ok then some ⟨st, startLiteral, u⟩ else some ⟨st, u, u⟩ := rfl

/-- One piece is one round of the loop. -/
theorem sharedLoop_piece {errno : Int} {env env' : Env} {pc : Piece} {u : List UInt8}
    {s : SharedState (List UInt8)} (h : Window errno env (pc.text ++ u) s) (hu : Terminated u)
    (hrun : runPiece codeLength env pc = some env') :
    ∃ s', Window errno env' u s' ∧
      ∀ fuel, sharedLoop writeList (fuel + 1) s = sharedLoop writeList fuel s' := by
  cases pc with
  | literal c plain =>
    obtain ⟨out, lit, hout, rfl⟩ := h
    obtain rfl := Option.some.inj hrun
    refine ⟨_, ⟨out, lit ++ [c], by simp [hout], rfl⟩, fun fuel => ?_⟩
    simp [sharedLoop, stateOf, infoOf, Piece.text, plain.1, plain.2]
  | directive d =>
    have hlayout : ∃ L args, d.layout env.args = some (L, args) := by
      obtain ⟨x, hx, _⟩ := Option.bind_eq_some_iff.mp hrun
      exact ⟨x.1, x.2, hx⟩
    obtain ⟨L, args, hlayout⟩ := hlayout
    obtain ⟨spec, hparse, hL, hs, hlen, hconv⟩ := parse_directive d hu env.args errno hlayout
    have hwrite := vprintfWriteSpec_list hrun errno hlayout hL hs hlen hconv
    have hok : (stateOf errno env').info.rc = .ok := rfl
    have hdirective : writeDirective writeList (stateOf errno env) s.startLiteral
        ⟨u, spec, args, errno, .ok⟩ = some ⟨stateOf errno env', u, u⟩ := by
      rw [writeDirective_parsed, hwrite, Option.bind_some, if_neg (not_not.mpr hok)]
    refine ⟨⟨stateOf errno env', u, u⟩, ⟨env'.out, [], by simp, by simp⟩, fun fuel => ?_⟩
    rw [sharedLoop_percent (t := d.text ++ u) h, hparse, Option.bind_some, hdirective,
      Option.bind_some]

theorem length_le_piecesText (ps : List Piece) : ps.length ≤ (piecesText ps).length := by
  induction ps with
  | nil => rfl
  | cons pc ps ih =>
    have hpos : 1 ≤ pc.text.length := by cases pc <;> simp [Piece.text]
    simp only [piecesText, List.flatMap_cons, List.length_append, List.length_cons] at ih ⊢
    omega

/-- The rounds of all pieces. -/
theorem sharedLoop_pieces {errno : Int} {env env' : Env} {ps : List Piece} {u : List UInt8}
    {s : SharedState (List UInt8)} (h : Window errno env (piecesText ps ++ u) s)
    (hu : Terminated u) (hrun : runPieces codeLength env ps = some env') :
    ∃ s', Window errno env' u s' ∧
      ∀ fuel, sharedLoop writeList (fuel + ps.length) s = sharedLoop writeList fuel s' := by
  induction ps generalizing env s with
  | nil =>
    obtain rfl := Option.some.inj hrun
    exact ⟨s, h, fun fuel => rfl⟩
  | cons pc ps ih =>
    obtain ⟨env₁, hpiece, hrest⟩ := Option.bind_eq_some_iff.mp hrun
    rw [piecesText, List.flatMap_cons, List.append_assoc] at h
    obtain ⟨s₁, hs₁, hfirst⟩ := sharedLoop_piece h (terminated_append hu _) hpiece
    obtain ⟨s', hs', hloop⟩ := ih hs₁ hrest
    refine ⟨s', hs', fun fuel => ?_⟩
    rw [List.length_cons, ← Nat.add_assoc, hfirst, hloop]

/-- What ends a format: its terminator, or a `%` that begins no directive. -/
inductive Tail where
  | stop (rest : List UInt8)
  | invalid (l : Lead) (u : List UInt8) (ends : l.Ends u) (no : NoDirective (l.text ++ u))
      (inside : Terminated u)

def Tail.text : Tail → List UInt8
  | .stop rest => 0 :: rest
  | .invalid l u _ _ _ => byte '%' :: (l.text ++ u)

/-- What a tail needs of the arguments: those of the stars of the invalid directive. -/
def Tail.Matches (args : List (BitVec 64)) : Tail → Prop
  | .stop _ => True
  | .invalid l _ _ _ _ => (l.layout args).isSome

theorem terminated_tail (tail : Tail) : Terminated tail.text := by
  cases tail with
  | stop rest => exact terminated_zero rest
  | invalid l u ends no inside =>
    exact (terminated_cons_of_ne (by decide)).mpr (terminated_append inside _)

/-- Every format is read as pieces and a tail. -/
theorem exists_pieces {t : List UInt8} (h : Terminated t) :
    ∃ (ps : List Piece) (tail : Tail), t = piecesText ps ++ tail.text := by
  induction hn : t.length using Nat.strong_induction_on generalizing t with
  | _ n ih =>
  cases t with
  | nil => exact absurd h not_terminated_nil
  | cons c t =>
    subst hn
    have hcons : ∀ (pc : Piece) (u : List UInt8), c :: t = pc.text ++ u → Terminated u →
        ∃ (ps : List Piece) (tail : Tail), c :: t = piecesText ps ++ tail.text := by
      intro pc u heq hu
      have hpos : 1 ≤ pc.text.length := by cases pc <;> simp [Piece.text]
      have hlen := congrArg List.length heq
      rw [List.length_append] at hlen
      obtain ⟨ps, tail, htext⟩ := ih u.length (by omega) hu rfl
      exact ⟨pc :: ps, tail, by rw [heq, htext]; simp [piecesText]⟩
    by_cases h0 : c = 0
    · exact ⟨[], .stop t, by rw [h0]; rfl⟩
    have ht : Terminated t := (terminated_cons_of_ne h0).mp h
    by_cases hpercent : c = byte '%'
    · subst hpercent
      by_cases hno : NoDirective t
      · obtain ⟨l, u, rfl, hends⟩ := exists_lead t
        have hu : Terminated u := (List.mem_append.mp ht).resolve_left l.zero_notMem_text
        exact ⟨[], .invalid l u hends hno hu, rfl⟩
      · simp only [NoDirective, not_forall, not_not] at hno
        obtain ⟨d, u, rfl⟩ := hno
        have hu : Terminated u := (List.mem_append.mp ht).resolve_left d.zero_notMem_text
        exact hcons (.directive d) u rfl hu
    · exact hcons (.literal c ⟨h0, hpercent⟩) t rfl ht

section Whole

variable (errno : Int) {env env' : Env} {ps : List Piece}

/-- Every call starts from the empty output. -/
theorem state_start (args : List (BitVec 64)) (mem : Memory.Mem) :
    (⟨⟨0, .ok, errno, []⟩, args, mem⟩ : PrintState (List UInt8)) =
      stateOf errno ⟨args, mem, []⟩ := rfl

theorem window_start (env : Env) (t : List UInt8) :
    Window errno env t ⟨stateOf errno env, t, t⟩ :=
  ⟨env.out, [], by simp, by simp⟩

theorem vprintfShared_stop (hrun : runPieces codeLength env ps = some env') (rest : List UInt8) :
    vprintfShared writeList (stateOf errno env) (piecesText ps ++ 0 :: rest) =
      some ⟨toSigned 32 (UInt64.ofNat env'.out.length).toNat, stateOf errno env'⟩ := by
  have hlen := length_le_piecesText ps
  obtain ⟨s, hs, hloop⟩ := sharedLoop_pieces
    (window_start errno env (piecesText ps ++ 0 :: rest)) (terminated_zero rest) hrun
  have hflush := flushLiteral_list hs
  have hfuel : (piecesText ps ++ 0 :: rest).length + 1 =
      (piecesText ps).length - ps.length + rest.length + 1 + 1 + ps.length := by
    simp only [List.length_append, List.length_cons]
    omega
  have hend : ∀ fuel, sharedLoop writeList (fuel + 1) s = some s := by
    intro fuel
    obtain ⟨out, lit, _, rfl⟩ := hs
    simp [sharedLoop, stateOf, infoOf]
  have hst : s.st.info.rc = .ok ∧ s.st.args = env'.args ∧ s.st.mem = env'.mem := by
    obtain ⟨out, lit, _, rfl⟩ := hs
    exact ⟨rfl, rfl, rfl⟩
  obtain ⟨hrc, hargs, hmem⟩ := hst
  rw [vprintfShared, hfuel, hloop, hend]
  have hne : (infoOf errno env'.out).rc ≠ .err := VprintRet.noConfusion
  simp only [Option.bind_eq_bind, Option.bind_some, hrc, if_true, hflush, hargs, hmem, hne,
    if_false]
  rfl

/-- `vsnprintf` on a format of valid directives, into a buffer with room for all of it. -/
theorem vsnprintf_stop {args : List (BitVec 64)} {mem : Memory.Mem}
    (hrun : runPieces codeLength ⟨args, mem, []⟩ ps = some env') {bufSize : Nat}
    (hsize : bufSize < 2 ^ 64) (hroom : env'.out.length < bufSize) {buffer : List UInt8}
    (hbuffer : env'.out.length < buffer.length) (rest : List UInt8) :
    vsnprintf buffer bufSize (piecesText ps ++ 0 :: rest) args mem errno =
      some ⟨toSigned 32 (UInt64.ofNat env'.out.length).toNat,
        env'.out ++ 0 :: buffer.drop (env'.out.length + 1), env'.args, env'.mem, errno⟩ := by
  have hk : min env'.out.length (bufSize - 1) = env'.out.length := by omega
  have hne : bufSize ≠ 0 := by omega
  rw [vsnprintf_list hsize, state_start, vprintfShared_stop errno hrun]
  simp [terminated, hk, hne, hbuffer, stateOf, infoOf]

theorem vprintfShared_invalid (hrun : runPieces codeLength env ps = some env') {l : Lead}
    {u : List UInt8} (hends : l.Ends u) (hno : NoDirective (l.text ++ u)) (hu : Terminated u)
    (hargs : (l.layout env'.args).isSome) :
    ∃ (args : List (BitVec 64)) (errno' : Int), (errno' = einval ∨ errno' = erange) ∧
      vprintfShared writeList (stateOf errno env) (piecesText ps ++ byte '%' :: (l.text ++ u)) =
        some ⟨-1, ⟨{ infoOf errno' env'.out with rc := .err }, args, env'.mem⟩⟩ := by
  have hlen := length_le_piecesText ps
  have hpos : 1 ≤ u.length := List.length_pos_of_mem hu
  obtain ⟨s, hs, hloop⟩ := sharedLoop_pieces
    (window_start errno env (piecesText ps ++ byte '%' :: (l.text ++ u)))
    ((terminated_cons_of_ne (by decide)).mpr (terminated_append hu l.text)) hrun
  obtain ⟨p, hparse, hp⟩ := parse_rejected hu hends hno hargs errno
  refine ⟨p.args, p.errno, hp.errno, ?_⟩
  have hfuel : (piecesText ps ++ byte '%' :: (l.text ++ u)).length + 1 =
      (piecesText ps).length - ps.length + l.text.length + (u.length - 1) + 1 + 1 + 1 +
        ps.length := by
    simp only [List.length_append, List.length_cons]
    omega
  have hwrite : writeDirective writeList (stateOf errno env') s.startLiteral p =
      some ⟨⟨{ infoOf p.errno env'.out with rc := .err }, p.args, env'.mem⟩, s.startLiteral,
        p.format⟩ := by
    simp [writeDirective, hp.rc, stateOf, infoOf]
  rw [vprintfShared, hfuel, hloop, sharedLoop_percent hs, hparse]
  simp only [Option.bind_eq_bind, Option.bind_some, hwrite]
  rw [sharedLoop_stopped VprintRet.noConfusion]
  rfl

end Whole

section Plain

/-- The modifiers among the lengths that `vprintf_parse_spec` stores. -/
def Plain (len : VprintfLength) : Prop := len = .none ∨ len = .hh ∨ len = .h

def PlainPiece : Piece → Prop
  | .literal _ _ => True
  | .directive d => Plain d.length

theorem codeLength_of_plain {len : VprintfLength} (h : Plain len) : codeLength len = len := by
  rcases h with rfl | rfl | rfl <;> rfl

theorem runPiece_plain {pc : Piece} (h : PlainPiece pc) (env : Env) :
    runPiece codeLength env pc = runPiece id env pc := by
  cases pc with
  | literal c plain => rfl
  | directive d =>
    have hd : codeLength d.length = d.length := codeLength_of_plain h
    simp only [runPiece, runDirective, runDirectiveWith, hd, id]

end Plain

section Printed

/-- The meaning of a piece, where a string has to be readable as far as it is printed. -/
def runPrinted (env : Env) : Piece → Option Env
  | .literal c _ => some { env with out := env.out ++ [c] }
  | .directive d => runDirectiveWith printedArg id d env

/-- The argument of a `%s` is NULL, or a NUL follows it in readable memory. -/
def StringEnds (env : Env) : Piece → Prop
  | .literal _ _ => True
  | .directive d => ∀ L a args, d.conv = .s → d.layout env.args = some (L, a :: args) →
      a = 0 ∨ Terminated (bytesAt env.mem a.toNat)

theorem printedArg_of_ends {mem : Mem} {a : BitVec 64}
    (h : a = 0 ∨ Terminated (bytesAt mem a.toNat)) (L : Layout) :
    printedArg L mem a = stringArg mem a := by
  by_cases ha : a = 0
  · rw [printedArg, stringArg, if_pos ha, if_pos ha]
  · have hterm := h.resolve_left ha
    simp only [printedArg, stringArg, if_neg ha, hterm, true_or, if_true]

/-- A piece that the law covers means what the code makes of it, if its string ends. -/
theorem runPrinted_of_ends {env : Env} {pc : Piece} (hplain : PlainPiece pc)
    (h : StringEnds env pc) : runPrinted env pc = runPiece codeLength env pc := by
  rw [runPiece_plain hplain]
  cases pc with
  | literal c plain => rfl
  | directive d =>
    simp only [runPrinted, runPiece, runDirective, runDirectiveWith]
    refine Option.bind_congr fun x hlayout => ?_
    obtain ⟨L, args⟩ := x
    by_cases hs : d.conv = .s
    · cases args with
      | nil => simp [hs, vaArg]
      | cons a args =>
        simp [hs, vaArg, ConvChar.conv, printedArg_of_ends (h L a args hs hlayout)]
    · cases hk : d.conv <;> first | exact absurd hk hs | rfl

/-- Where all strings end, what is printed is what the code has read. -/
theorem runPieces_of_printed {env env' : Env} {ps : List Piece}
    (hplain : ∀ pc ∈ ps, PlainPiece pc) (hends : Along runPrinted StringEnds env ps)
    (hrun : exec runPrinted env ps = some env') : runPieces codeLength env ps = some env' := by
  induction ps generalizing env with
  | nil =>
    rw [exec_nil] at hrun
    rw [runPieces, List.foldlM_nil, ← hrun]
    rfl
  | cons pc ps ih =>
    rw [exec_cons] at hrun
    obtain ⟨env₁, hpiece, hrest⟩ := Option.bind_eq_some_iff.mp hrun
    have htail := ih (fun pc hpc => hplain pc (List.mem_cons_of_mem _ hpc))
      (hends.2 env₁ hpiece) hrest
    rw [runPrinted_of_ends (hplain pc List.mem_cons_self) hends.1] at hpiece
    rw [runPieces, List.foldlM_cons, hpiece]
    exact htail

/-- `strlen` leaves the readable memory, whatever the precision is. -/
theorem vprintfWriteSpec_unterminated {σ : Type} (write : WriteFn σ) (info : Info σ)
    {a : BitVec 64} (args : List (BitVec 64)) {mem : Mem} {spec : VprintSpec}
    (hconv : spec.conv = .s) (ha : a ≠ 0) (hterm : ¬Terminated (bytesAt mem a.toNat)) :
    vprintfWriteSpec write ⟨info, a :: args, mem⟩ spec = none := by
  have hs : vprintfConvS write info spec (some (bytesAt mem a.toNat)) = none := by
    rw [vprintfConvS, Option.getD_some, strlen_unterminated hterm]
    rfl
  simp only [vprintfWriteSpec, hconv, vaArg, Option.bind_eq_bind, Option.bind_some, if_neg ha, hs,
    Option.bind_none]

/-- The loop does not come back from a string without end. -/
theorem sharedLoop_unended {errno : Int} {env : Env} {pc : Piece} {u : List UInt8}
    {s : SharedState (List UInt8)} (h : Window errno env (pc.text ++ u) s) (hu : Terminated u)
    (hnot : ¬StringEnds env pc) (fuel : Nat) : sharedLoop writeList (fuel + 1) s = none := by
  cases pc with
  | literal c plain => exact absurd trivial hnot
  | directive d =>
    simp only [StringEnds, not_forall, not_or] at hnot
    obtain ⟨L, a, args, hs, hlayout, ha, hterm⟩ := hnot
    obtain ⟨spec, hparse, _, _, _, hconv⟩ := parse_directive d hu env.args errno hlayout
    rw [hs] at hconv
    have hwrite : vprintfWriteSpec writeList (stateOf errno { env with args := a :: args }) spec =
        none := vprintfWriteSpec_unterminated writeList _ args hconv ha hterm
    rw [sharedLoop_percent (t := d.text ++ u) h, hparse, Option.bind_some, writeDirective_parsed,
      hwrite, Option.bind_none, Option.bind_none]

/-- A run in which some string has no end does not come back: the pieces before it are
written, and then the loop is stuck. -/
theorem sharedLoop_not_ends {errno : Int} {env env' : Env} {ps : List Piece} {u : List UInt8}
    {s : SharedState (List UInt8)} (h : Window errno env (piecesText ps ++ u) s)
    (hu : Terminated u) (hplain : ∀ pc ∈ ps, PlainPiece pc)
    (hrun : exec runPrinted env ps = some env') (hnot : ¬Along runPrinted StringEnds env ps)
    {fuel : Nat} (hfuel : ps.length ≤ fuel) : sharedLoop writeList fuel s = none := by
  induction ps generalizing env s fuel with
  | nil => exact absurd trivial hnot
  | cons pc ps ih =>
    obtain ⟨fuel, rfl⟩ := Nat.exists_eq_succ_of_ne_zero
      (by simp only [List.length_cons] at hfuel; omega : fuel ≠ 0)
    rw [piecesText, List.flatMap_cons, List.append_assoc] at h
    have hrest : Terminated (piecesText ps ++ u) := terminated_append hu _
    by_cases hends : StringEnds env pc
    · rw [exec_cons] at hrun
      obtain ⟨env₁, hpiece, hrun⟩ := Option.bind_eq_some_iff.mp hrun
      have hlater : ¬Along runPrinted StringEnds env₁ ps :=
        fun hall => hnot (along_cons_of_step hpiece hends hall)
      rw [runPrinted_of_ends (hplain pc List.mem_cons_self) hends] at hpiece
      obtain ⟨s₁, hs₁, hfirst⟩ := sharedLoop_piece h hrest hpiece
      rw [hfirst]
      exact ih hs₁ (fun pc hpc => hplain pc (List.mem_cons_of_mem _ hpc)) hrun hlater
        (Nat.succ_le_succ_iff.mp hfuel)
    · exact sharedLoop_unended h hrest hends fuel

end Printed

section Law

/-- What the law says of a call: the buffer, what is stored, and what is returned. -/
structure Lawful (tail : Tail) (env : Env) (errno : Int) (buffer : List UInt8) (bufSize : Nat)
    (r : PrintResult StrSink) : Prop where
  sink : r.st.info.sink = ⟨env.out ++ buffer.drop env.out.length, env.out.length,
    bufSize - env.out.length⟩
  mem : r.st.mem = env.mem
  ret : match tail with
    | .stop _ => r.ret = env.out.length ∧ r.st.args = env.args ∧ r.st.info.errno = errno
    | .invalid _ _ _ _ _ => r.ret = -1

variable {ps : List Piece} {tail : Tail} {args : List (BitVec 64)} {mem : Memory.Mem}
  {env' : Env} {buffer : List UInt8} {bufSize : Nat} {errno : Int}

theorem lawful_of_run (hrun : runPieces codeLength ⟨args, mem, []⟩ ps = some env')
    (hmatches : tail.Matches env'.args) (hmax : env'.out.length ≤ intMax)
    (hsize : env'.out.length ≤ bufSize) (hbuffer : env'.out.length ≤ buffer.length) :
    ∃ r, vprintfShared writeStr ⟨⟨0, .ok, errno, ⟨buffer, 0, bufSize⟩⟩, args, mem⟩
        (piecesText ps ++ tail.text) = some r ∧ Lawful tail env' errno buffer bufSize r := by
  have hclip : clip buffer bufSize env'.out = some ⟨env'.out ++ buffer.drop env'.out.length,
      env'.out.length, bufSize - env'.out.length⟩ := by
    rw [clip, min_eq_left hsize, if_pos hbuffer, List.take_length]
  rw [vprintfShared_str, state_start]
  cases tail with
  | stop rest =>
    rw [intMax] at hmax
    have hret : toSigned 32 (UInt64.ofNat env'.out.length).toNat = env'.out.length := by
      rw [UInt64.toNat_ofNat', Nat.mod_eq_of_lt (by omega),
        toSigned_of_inSigned (by decide) ⟨by norm_num, by norm_num; omega⟩]
    rw [Tail.text, vprintfShared_stop errno hrun, hret]
    simp only [mapResult, mapState, mapInfo, stateOf, infoOf, hclip, Option.map_some,
      Option.bind_some]
    exact ⟨_, rfl, rfl, rfl, rfl, rfl, rfl⟩
  | invalid l u ends no inside =>
    obtain ⟨args', errno', _, hbad⟩ := vprintfShared_invalid errno hrun ends no inside
      hmatches
    rw [Tail.text, hbad]
    simp only [mapResult, mapState, mapInfo, infoOf, hclip, Option.map_some, Option.bind_some]
    exact ⟨_, rfl, rfl, rfl, rfl⟩

theorem vprintfShared_not_ends (hplain : ∀ pc ∈ ps, PlainPiece pc)
    (hrun : exec runPrinted ⟨args, mem, []⟩ ps = some env')
    (hnot : ¬Along runPrinted StringEnds ⟨args, mem, []⟩ ps) :
    vprintfShared writeStr ⟨⟨0, .ok, errno, ⟨buffer, 0, bufSize⟩⟩, args, mem⟩
      (piecesText ps ++ tail.text) = none := by
  have hlen := length_le_piecesText ps
  have hfuel : ps.length ≤ (piecesText ps ++ tail.text).length + 1 := by
    rw [List.length_append]
    omega
  have hstuck := sharedLoop_not_ends
    (window_start errno ⟨args, mem, []⟩ (piecesText ps ++ tail.text)) (terminated_tail tail)
    hplain hrun hnot hfuel
  rw [vprintfShared_str, state_start, vprintfShared, hstuck]
  rfl

/-- Every format is pieces and a tail. Without the other modifiers, and into a buffer that is
large enough, the law holds exactly when every string the format prints has an end. -/
theorem vprintf_shared_format_law_iff {t : List UInt8} (ht : Terminated t) :
    (∃ (ps : List Piece) (tail : Tail), t = piecesText ps ++ tail.text) ∧
    ∀ (ps : List Piece) (tail : Tail) (args : List (BitVec 64)) (mem : Memory.Mem) (env' : Env)
      (buffer : List UInt8) (bufSize : Nat) (errno : Int),
      t = piecesText ps ++ tail.text → (∀ pc ∈ ps, PlainPiece pc) →
      exec runPrinted ⟨args, mem, []⟩ ps = some env' →
      tail.Matches env'.args → env'.out.length ≤ intMax →
      env'.out.length ≤ bufSize → env'.out.length ≤ buffer.length →
      ((∃ r, vprintfShared writeStr ⟨⟨0, .ok, errno, ⟨buffer, 0, bufSize⟩⟩, args, mem⟩ t =
          some r ∧ Lawful tail env' errno buffer bufSize r) ↔
        Along runPrinted StringEnds ⟨args, mem, []⟩ ps) := by
  refine ⟨exists_pieces ht, ?_⟩
  rintro ps tail args mem env' buffer bufSize errno rfl hplain hrun hmatches hmax hsize hbuffer
  constructor
  · rintro ⟨r, hr, _⟩
    by_contra hnot
    rw [vprintfShared_not_ends hplain hrun hnot] at hr
    cases hr
  · intro hends
    exact lawful_of_run (runPieces_of_printed hplain hends hrun) hmatches hmax hsize hbuffer

/-- The directive `%+d`. -/
def plusD : Directive where
  flags := [.plus]
  width := .absent
  precision := .absent
  length := .none
  conv := .d
  fits := by decide

/-- `"a%+d"` with the argument 98. -/
theorem vprintf_shared_format_law_iff_98 :
    ∃ r, vprintfShared writeStr ⟨⟨0, .ok, 0, ⟨List.replicate 6 7, 0, 5⟩⟩, [98], fun _ => none⟩
        [97, 37, 43, 100, 0] = some r ∧
      Lawful (.stop []) ⟨[], fun _ => none, [97, 43, 57, 56]⟩ 0 (List.replicate 6 7) 5 r :=
  ((vprintf_shared_format_law_iff (t := [97, 37, 43, 100, 0]) (by decide)).2
    [.literal 97 (by decide), .directive plusD] (.stop []) [98] (fun _ => none)
    ⟨[], fun _ => none, [97, 43, 57, 56]⟩ (List.replicate 6 7) 5 0 rfl
    (by simp [PlainPiece, Plain, plusD]) rfl trivial (by decide) (by decide) (by decide)).mpr
    ⟨trivial, fun _ _ => ⟨fun _ _ _ h => absurd h (by decide), fun _ _ => trivial⟩⟩

/-- The directive `%.3s`. -/
def threeS : Directive where
  flags := []
  width := .absent
  precision := .number [⟨3, by decide⟩]
  length := .none
  conv := .s
  fits := by decide

/-- An array of three characters at 8, and nothing readable behind it. -/
def abcAt8 : Mem := fun a => if a < 8 then none else [97, 98, 99][a - 8]?

/-- `"%.3s"` with such an array: the law has "abc" printed, and the code does not come back. -/
theorem three_characters_no_end :
    exec runPrinted ⟨[8], abcAt8, []⟩ [.directive threeS] = some ⟨[], abcAt8, [97, 98, 99]⟩ ∧
    ¬∃ r, vprintfShared writeStr ⟨⟨0, .ok, 0, ⟨List.replicate 6 7, 0, 5⟩⟩, [8], abcAt8⟩
        [37, 46, 51, 115, 0] = some r ∧
      Lawful (.stop []) ⟨[], abcAt8, [97, 98, 99]⟩ 0 (List.replicate 6 7) 5 r := by
  have hstuck : vprintfShared writeStr ⟨⟨0, .ok, 0, ⟨List.replicate 6 7, 0, 5⟩⟩, [8], abcAt8⟩
      [37, 46, 51, 115, 0] = none := rfl
  refine ⟨rfl, ?_⟩
  rintro ⟨r, hr, _⟩
  rw [hstuck] at hr
  cases hr

end Law

end FormatLaw
