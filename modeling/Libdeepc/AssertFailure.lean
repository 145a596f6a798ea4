import Libdeepc.ExitHandlers
import Libdeepc.LengthModifiers
import Libdeepc.WriteStop

/-!
# Failing assertions

`__assert_failure` of `assert.c`: the message on `stderr`, and `abort`. What
`fprintf` returns is not looked at, so the process ends in any case.
-/

namespace AssertFailure

open CString Memory PrintfWrite PrintfPlan PrintfShared IntRendering
open FormatGrammar FormatParser FormatMeaning FormatLaw WriteStop
open LengthModifiers (PlainText)

section Code

variable {F : Type}

/-- Aborting is exiting with status 1. -/
def abort (s : ExitHandlers.State F) : ExitHandlers.State F := ExitHandlers._Exit 1 s

def firstText : List UInt8 := "Assert failed:\n  Cond: ".toList.map byte

def fileText : List UInt8 := "\n  File: ".toList.map byte

def lineText : List UInt8 := ":".toList.map byte

def funcText : List UInt8 := "\n  Func: ".toList.map byte

def lastText : List UInt8 := "\n".toList.map byte

def failureFormat : List UInt8 :=
  literal "Assert failed:\n  Cond: %s\n  File: %s:%zu\n  Func: %s\n".toList

/-- What the process has written to `stderr`, and the process. The descriptor is that of `stderr`,
and strings are known by their addresses. -/
def assertFailure (kernel : Kernel) (cond file line func : BitVec 64) (mem : Mem) (errno : Int)
    (s : ExitHandlers.State F) : Option (List (List UInt8) × ExitHandlers.State F) :=
  (vfprintf kernel failureFormat [cond, file, line, func] mem errno).map fun r =>
    (r.st.info.sink.calls, abort s)

end Code

section Pieces

def plainS : Directive where
  flags := []
  width := .absent
  precision := .absent
  length := .none
  conv := .s
  fits := by decide

/-- The directive `%zu`. -/
def sizeU : Directive where
  flags := []
  width := .absent
  precision := .absent
  length := .z
  conv := .u
  fits := by decide

/-- Bytes that a format copies, one by one. -/
def literals (s : List UInt8) : List Piece :=
  s.filterMap fun c => if h : c ≠ 0 ∧ c ≠ byte '%' then some (.literal c h) else none

variable {s : List UInt8}

theorem literals_cons {c : UInt8} (h : c ≠ 0 ∧ c ≠ byte '%') (s : List UInt8) :
    literals (c :: s) = .literal c h :: literals s := by
  rw [literals, List.filterMap_cons, dif_pos h]
  rfl

theorem runPieces_literals (h : PlainText s) (keep : VprintfLength → VprintfLength) (env : Env)
    (ps : List Piece) : runPieces keep env (literals s ++ ps) =
      runPieces keep { env with out := env.out ++ s } ps := by
  induction s generalizing env with
  | nil => rw [List.append_nil]; rfl
  | cons c s ih =>
    have hs : PlainText s := fun d hd => h d (List.mem_cons_of_mem c hd)
    rw [literals_cons (h c List.mem_cons_self), List.cons_append, runPieces, List.foldlM_cons]
    have hrest := ih hs { env with out := env.out ++ [c] }
    rw [List.append_assoc] at hrest
    exact hrest

theorem formatWrites_literals (h : PlainText s) (lit : List UInt8) (env : Env) (ps : List Piece) :
    formatWrites lit env (literals s ++ ps) =
      formatWrites (lit ++ s) { env with out := env.out ++ s } ps := by
  induction s generalizing lit env with
  | nil => rw [List.append_nil, List.append_nil]; rfl
  | cons c s ih =>
    have hs : PlainText s := fun d hd => h d (List.mem_cons_of_mem c hd)
    rw [literals_cons (h c List.mem_cons_self), List.cons_append, formatWrites, ih hs,
      List.append_assoc, List.append_assoc]
    rfl

end Pieces

section Calls

variable {kernel : Kernel} {errno : Int} {calls : List (List UInt8)}

/-- The calls that the writes of a format make, and the bytes of each. -/
def callsOf (cs : List Chunk) : List (List UInt8) := (cs.map Chunk.bytes).filter (· ≠ [])

/-- Calls up to the first one that is not taken whole, or all of them. -/
structure UpToFailure (kernel : Kernel) (planned calls : List (List UInt8)) : Prop where
  isPrefix : calls <+: planned
  last : ∀ before c after, calls = before ++ c :: after → kernel before c ≠ .ok c.length →
    after = []
  full : Whole kernel calls → calls = planned

theorem flatten_callsOf (cs : List Chunk) : (callsOf cs).flatten = bytesOf cs := by
  rw [callsOf, bytesOf, List.flatMap_def]
  exact List.flatten_filter_ne_nil

theorem callsOf_cons_empty {c : Chunk} (h : c.bytes = []) (cs : List Chunk) :
    callsOf (c :: cs) = callsOf cs := by
  simp [callsOf, h]

theorem callsOf_cons {c : Chunk} (h : c.bytes ≠ []) (cs : List Chunk) :
    callsOf (c :: cs) = c.bytes :: callsOf cs := by
  simp [callsOf, h]

theorem upToFailure_concat (h : Whole kernel calls) {c : List UInt8}
    (hc : kernel calls c ≠ .ok c.length) (rest : List (List UInt8)) :
    UpToFailure kernel (calls ++ c :: rest) (calls ++ [c]) where
  isPrefix := ⟨rest, by rw [List.append_assoc]; rfl⟩
  last before x after hsplit hnot := (last_concat h before x after hsplit hnot).2.2
  full hwhole := absurd (hwhole calls c [] rfl) hc

/-- Writes that are all tested stop at the first failure. -/
theorem runChunks_upToFailure (hk : Bounded kernel) {cs : List Chunk}
    (htested : ∀ c ∈ cs, c.follow = []) (h : Whole kernel calls) {i : Info Fd}
    (hrun : runChunks (writeFd kernel) cs (infoAt errno calls) = some i) :
    UpToFailure kernel (calls ++ callsOf cs) i.sink.calls := by
  induction cs generalizing calls with
  | nil =>
    obtain rfl := Option.some.inj hrun
    refine ⟨?_, fun before c after hsplit hnot => ?_, fun _ => ?_⟩
    · exact List.prefix_append calls (callsOf [])
    · exact absurd (h before c after hsplit) hnot
    · exact (List.append_nil calls).symm
  | cons c cs ih =>
    have hcs : ∀ d ∈ cs, d.follow = [] := fun d hd => htested d (List.mem_cons_of_mem c hd)
    have hfollow : c.follow = [] := htested c List.mem_cons_self
    by_cases hbytes : c.bytes = []
    · rw [callsOf_cons_empty hbytes]
      simp only [runChunks, hbytes, (staysStopped_fd kernel).empty, Option.bind_eq_bind,
        Option.bind_some] at hrun
      exact ih hcs h hrun
    · rw [callsOf_cons hbytes]
      cases hanswer : kernel calls c.bytes with
      | ok n =>
        have hle := hk calls c.bytes n hanswer
        by_cases hn : n = c.bytes.length
        · subst hn
          simp only [runChunks, writeFd_whole hbytes hanswer, Option.bind_eq_bind,
            Option.bind_some] at hrun
          have hrest := ih hcs (whole_concat h hanswer) hrun
          rwa [List.append_assoc, List.singleton_append] at hrest
        · have hlt : n < c.bytes.length := Nat.lt_of_le_of_ne hle hn
          simp only [runChunks, writeFd_short hanswer hlt, Option.bind_eq_bind,
            Option.bind_some, hfollow, (staysStopped_fd kernel).empty] at hrun
          obtain rfl := Option.some.inj hrun
          apply upToFailure_concat h
          rw [hanswer]
          exact fun heq => hn (Except.ok.inj heq)
      | error e =>
        simp only [runChunks, writeFd_failed hbytes hanswer, Option.bind_eq_bind,
          Option.bind_some, hfollow, (staysStopped_fd kernel).empty] at hrun
        obtain rfl := Option.some.inj hrun
        apply upToFailure_concat h
        rw [hanswer]
        exact fun heq => by cases heq

/-- What has been taken is the beginning of what was to be written. -/
theorem UpToFailure.accepted {planned : List (List UInt8)} (h : UpToFailure kernel planned calls) :
    accepted kernel [] calls <+: planned.flatten := by
  obtain ⟨rest, hrest⟩ := h.isPrefix
  have hflat : calls.flatten <+: planned.flatten := ⟨rest.flatten, by rw [← hrest]; simp⟩
  by_cases hwhole : Whole kernel calls
  · rwa [accepted_whole hwhole]
  · obtain ⟨before, c, after, hsplit, hc⟩ : ∃ before c after,
        calls = before ++ c :: after ∧ kernel before c ≠ .ok c.length := by
      by_contra hnone
      refine hwhole fun before c after hsplit => ?_
      by_contra hc
      exact hnone ⟨before, c, after, hsplit, hc⟩
    obtain rfl := h.last before c after hsplit hc
    have hbefore : Whole kernel before := by
      intro b x a hb
      by_contra hx
      have hlast := h.last b x (a ++ [c]) (by rw [hsplit, hb]; simp) hx
      simp at hlast
    rw [hsplit, accepted_append, accepted_whole hbefore]
    rw [hsplit, List.flatten_append, List.flatten_singleton] at hflat
    refine List.IsPrefix.trans ((List.prefix_append_right_inj _).mpr ?_) hflat
    rw [List.nil_append, WriteStop.accepted, WriteStop.accepted, List.append_nil]
    cases kernel before c with
    | ok n => exact List.take_prefix n c
    | error e => exact List.nil_prefix

end Calls

section Message

def plainLayout : Layout := ⟨false, false, false, false, false, 0, none⟩

def failurePieces : List Piece :=
  literals firstText ++ .directive plainS :: (literals fileText ++ .directive plainS ::
    (literals lineText ++ .directive sizeU :: (literals funcText ++ .directive plainS ::
      (literals lastText ++ []))))

/-- The message. Of the line it shows the low half: the parser takes `%zu` for `%u`. -/
def message (cond file : List UInt8) (line : BitVec 64) (func : List UInt8) : List UInt8 :=
  firstText ++ cond ++ fileText ++ file ++ lineText ++
    renderInt plainLayout .u (line.toNat % 2 ^ 32) ++ funcText ++ func ++ lastText

theorem failureFormat_pieces :
    failureFormat = piecesText failurePieces ++ (Tail.stop []).text := by
  decide +kernel

theorem renderString_plain (s : List UInt8) : renderString plainLayout s = s := by
  simp [renderString, plainLayout, place]

theorem runDirective_plainS {env : Env} {a : BitVec 64} {args : List (BitVec 64)} {s : List UInt8}
    (hargs : env.args = a :: args) (hs : stringArg env.mem a = some s) :
    runDirective codeLength plainS env = some { env with args := args, out := env.out ++ s } := by
  have hlayout : plainS.layout env.args = some (plainLayout, a :: args) := by rw [hargs]; rfl
  have hconv : plainS.conv = .s := rfl
  simp [runDirective, runDirectiveWith, hlayout, hconv, vaArg, ConvChar.conv, hs,
    renderString_plain]

theorem runDirective_sizeU {env : Env} {a : BitVec 64} {args : List (BitVec 64)}
    (hargs : env.args = a :: args) : runDirective codeLength sizeU env =
      some { env with
        args := args
        out := env.out ++ renderInt plainLayout .u (a.toNat % 2 ^ 32) } := by
  have hlayout : sizeU.layout env.args = some (plainLayout, a :: args) := by rw [hargs]; rfl
  have hconv : sizeU.conv = .u := rfl
  have hlength : codeLength sizeU.length = .none := rfl
  simp [runDirective, runDirectiveWith, hlayout, hconv, hlength, vaArg, ConvChar.conv, unsignedArg,
    slotUint]

/-- The directives of the message write piece by piece, each piece tested. -/
theorem tested_plainS {env : Env} {a : BitVec 64} {args : List (BitVec 64)} {s : List UInt8}
    (hargs : env.args = a :: args) (hs : stringArg env.mem a = some s) :
    directiveWrites plainS env = [tested s] := by
  have hlayout : plainS.layout env.args = some (plainLayout, a :: args) := by rw [hargs]; rfl
  have hconv : plainS.conv = .s := rfl
  simp [directiveWrites, hlayout, hconv, ConvChar.conv, argumentWrites, hs, stringBody, textChunks,
    paddedText, plainLayout, padding, blocks]

theorem tested_of_mem {b : List (List UInt8)} {ch : Chunk} (h : ch ∈ b.map tested) :
    ch.follow = [] := by
  obtain ⟨_, _, rfl⟩ := List.mem_map.mp h
  rfl

/-- A number is never written behind a failed padding. -/
theorem tested_intChunks (L : Layout) (conv : VprintfConv) (v : Int) :
    ∀ ch ∈ intChunks L conv v, ch.follow = [] := by
  intro ch h
  simp only [intChunks, List.mem_append] at h
  rcases h with h | h | h | h | h
  · split at h
    · exact tested_of_mem h
    · cases h
  · split at h
    · exact tested_of_mem (b := [_]) h
    · cases h
  · exact tested_of_mem h
  · exact tested_of_mem (b := [_]) h
  · split at h
    · exact tested_of_mem h
    · cases h

theorem tested_sizeU {env : Env} {a : BitVec 64} {args : List (BitVec 64)}
    (hargs : env.args = a :: args) : ∀ ch ∈ directiveWrites sizeU env, ch.follow = [] := by
  have hlayout : sizeU.layout env.args = some (plainLayout, a :: args) := by rw [hargs]; rfl
  have hconv : sizeU.conv = .u := rfl
  simp only [directiveWrites, hlayout, hconv, reduceCtorEq, if_false, ConvChar.conv, argumentWrites]
  exact tested_intChunks plainLayout .u _

theorem runPieces_directive {keep : VprintfLength → VprintfLength} {env env' : Env} {d : Directive}
    (h : runDirective keep d env = some env') (ps : List Piece) :
    runPieces keep env (.directive d :: ps) = runPieces keep env' ps := by
  rw [runPieces, List.foldlM_cons, runPiece, h]
  rfl

theorem formatWrites_directive {lit : List UInt8} {env env' : Env} {d : Directive}
    (h : runDirective codeLength d env = some env') (ps : List Piece) :
    formatWrites lit env (.directive d :: ps) =
      tested lit :: (directiveWrites d env ++ formatWrites [] env' ps) := by
  rw [formatWrites, h]
  rfl

end Message

section Report

variable {F : Type} {mem : Mem} {cond file func : BitVec 64} {c f g : List UInt8}

theorem plain_texts : PlainText firstText ∧ PlainText fileText ∧ PlainText lineText ∧
    PlainText funcText ∧ PlainText lastText := by
  unfold PlainText
  decide +kernel

/-- The meaning of the format is the message, and all its writes are tested. -/
theorem run_failurePieces (line : BitVec 64) (hcond : stringArg mem cond = some c)
    (hfile : stringArg mem file = some f) (hfunc : stringArg mem func = some g) :
    runPieces codeLength ⟨[cond, file, line, func], mem, []⟩ failurePieces =
      some ⟨[], mem, message c f line g⟩ ∧
    ∀ ch ∈ formatWrites [] ⟨[cond, file, line, func], mem, []⟩ failurePieces, ch.follow = [] := by
  obtain ⟨hfirst, hfilet, hlinet, hfunct, hlast⟩ := plain_texts
  constructor
  · rw [failurePieces, runPieces_literals hfirst,
      runPieces_directive (runDirective_plainS rfl hcond), runPieces_literals hfilet,
      runPieces_directive (runDirective_plainS rfl hfile), runPieces_literals hlinet,
      runPieces_directive (runDirective_sizeU rfl), runPieces_literals hfunct,
      runPieces_directive (runDirective_plainS rfl hfunc), runPieces_literals hlast]
    rfl
  · rw [failurePieces, formatWrites_literals hfirst,
      formatWrites_directive (runDirective_plainS rfl hcond), formatWrites_literals hfilet,
      formatWrites_directive (runDirective_plainS rfl hfile), formatWrites_literals hlinet,
      formatWrites_directive (runDirective_sizeU rfl), formatWrites_literals hfunct,
      formatWrites_directive (runDirective_plainS rfl hfunc), formatWrites_literals hlast]
    have hsize : ∀ ch ∈ directiveWrites sizeU ⟨[line, func], mem,
        [] ++ firstText ++ c ++ fileText ++ f ++ lineText⟩, ch.follow = [] := tested_sizeU rfl
    rw [tested_plainS rfl hcond, tested_plainS rfl hfile, tested_plainS rfl hfunc]
    intro ch hch
    simp only [List.mem_cons, List.mem_append, List.not_mem_nil, or_false, formatWrites] at hch
    rcases hch with rfl | rfl | rfl | rfl | rfl | hch | rfl | rfl | rfl
    case inr.inr.inr.inr.inr.inl => exact hsize ch hch
    all_goals rfl

/-- A failing assertion ends the process with status 1, whatever the writes to `stderr` come to, and
no handler is called. What is written before the first failure is the beginning of the message. -/
theorem assert_reports (kernel : Kernel) (hk : Bounded kernel) (cond file line func : BitVec 64)
    (mem : Mem) (c f g : List UInt8) (errno : Int) (s : ExitHandlers.State F)
    (hcond : stringArg mem cond = some c) (hfile : stringArg mem file = some f)
    (hfunc : stringArg mem func = some g) :
    ∃ calls s', assertFailure kernel cond file line func mem errno s = some (calls, s') ∧
      accepted kernel [] calls <+: message c f line g ∧
      (∀ before x after, calls = before ++ x :: after → kernel before x ≠ .ok x.length →
        after = []) ∧
      (Whole kernel calls → calls.flatten = message c f line g) ∧
      s'.handlers = s.handlers ∧ s'.trace = s.trace ++ [.terminated 1] := by
  obtain ⟨hrun, htested⟩ := run_failurePieces line hcond hfile hfunc
  obtain ⟨i, r, hchunks, hcall, hsink, _⟩ :=
    vfprintf_writes hk hrun (show (Tail.stop []).Matches [] from trivial) errno
  have hstops := runChunks_upToFailure hk htested whole_nil hchunks
  have hbytes : message c f line g = [] ++ bytesOf (formatWrites [] ⟨[cond, file, line, func], mem,
    []⟩ failurePieces) := bytesOf_formatWrites rfl hrun
  have hplanned : ([] ++ callsOf (formatWrites [] ⟨[cond, file, line, func], mem, []⟩
      failurePieces)).flatten = message c f line g := by
    rw [List.nil_append, flatten_callsOf, hbytes, List.nil_append]
  rw [← failureFormat_pieces] at hcall
  refine ⟨r.st.info.sink.calls, abort s, ?_, ?_, ?_, fun hwhole => ?_, rfl, rfl⟩
  · rw [assertFailure, hcall]
    rfl
  · rw [hsink, ← hplanned]
    exact hstops.accepted
  · rw [hsink]
    exact hstops.last
  · rw [hsink] at hwhole ⊢
    rw [hstops.full hwhole, hplanned]

example : message ("0 == 1".toList.map byte) ("a.c".toList.map byte) 9 ("main".toList.map byte) =
    "Assert failed:\n  Cond: 0 == 1\n  File: a.c:9\n  Func: main\n".toList.map byte := by
  decide +kernel

def condPtr : BitVec 64 := 0xfffffffffffffff0

def filePtr : BitVec 64 := 0xfffffffffffffff7

def funcPtr : BitVec 64 := 0xfffffffffffffffb

/-- `0 == 1`, `a.c` and `main` at the end of the address space. -/
def threeStrings : Mem := fun p =>
  ("0 == 1\x00a.c\x00main\x00".toList.map byte)[p - condPtr.toNat]?

def mainMessage : List UInt8 :=
  message ("0 == 1".toList.map byte) ("a.c".toList.map byte) 9 ("main".toList.map byte)

/-- A process with one handler. -/
def oneHandler : ExitHandlers.State Nat := ExitHandlers.started [(.atExit, 7)]

theorem assert_reports_main : ∃ calls s',
    assertFailure noneOfSecond condPtr filePtr 9 funcPtr threeStrings 0 oneHandler =
        some (calls, s') ∧
      accepted noneOfSecond [] calls <+: mainMessage ∧
      (∀ before x after, calls = before ++ x :: after →
        noneOfSecond before x ≠ .ok x.length → after = []) ∧
      (Whole noneOfSecond calls → calls.flatten = mainMessage) ∧
      s'.handlers = oneHandler.handlers ∧ s'.trace = oneHandler.trace ++ [.terminated 1] := by
  have hk : Bounded noneOfSecond := by
    intro calls bytes n h
    obtain rfl := Except.ok.inj h
    split
    · exact Nat.zero_le _
    · exact le_rfl
  exact assert_reports noneOfSecond hk condPtr filePtr 9 funcPtr threeStrings
    ("0 == 1".toList.map byte) ("a.c".toList.map byte) ("main".toList.map byte) 0 oneHandler
    (by decide +kernel) (by decide +kernel) (by decide +kernel)

end Report

end AssertFailure
