import Libdeepc.PrintfShared

/-!
# One formatter, several sinks

Every function of `printf.c` reaches its sink through the write function only.
A translation of sinks that commutes with the write functions therefore commutes
with the whole formatter. Two translations are enough: the calls made on a
descriptor flatten to a byte list, and a byte list is cut to what a buffer holds.
-/

namespace PrintfSink

open CString MachineInt Memory PrintfWrite PrintfShared

/-- The sink that only collects the bytes. -/
def writeList : WriteFn (List UInt8) := fun info buf =>
  some { info with written := info.written + UInt64.ofNat buf.length, sink := info.sink ++ buf }

variable {σ τ : Type} (f : σ → Option τ)

def mapInfo (i : Info σ) : Option (Info τ) :=
  (f i.sink).map fun s => ⟨i.written, i.rc, i.errno, s⟩

def mapState (st : PrintState σ) : Option (PrintState τ) :=
  (mapInfo f st.info).map fun i => ⟨i, st.args, st.mem⟩

def mapShared (s : SharedState σ) : Option (SharedState τ) :=
  (mapState f s.st).map fun st => ⟨st, s.startLiteral, s.format⟩

def mapResult (r : PrintResult σ) : Option (PrintResult τ) :=
  (mapState f r.st).map fun st => ⟨r.ret, st⟩

/-- Acting on the sink and translating it afterwards, or the other way round. -/
def Comm {S S' T T' : Type} (m : S → Option T) (m' : S' → Option T') (a : S → Option S')
    (b : T → Option T') : Prop :=
  ∀ s, (a s).bind m' = (m s).bind b

/-- A translation of sinks under which one write function acts as the other. -/
def Transfers (write : WriteFn σ) (write' : WriteFn τ) : Prop :=
  ∀ buf, Comm (mapInfo f) (mapInfo f) (write · buf) (write' · buf)

section Comm

variable {S S' S'' T T' T'' : Type} {m : S → Option T} {m' : S' → Option T'}
  {m'' : S'' → Option T''}

theorem comm_some : Comm m m some some := fun s => by simp

theorem comm_none : Comm m m' (fun _ => none) (fun _ => none) := fun s => by simp

theorem Comm.seq {a : S → Option S'} {b : T → Option T'} {a' : S' → Option S''}
    {b' : T' → Option T''} (h : Comm m m' a b) (h' : Comm m' m'' a' b') :
    Comm m m'' (fun s => (a s).bind a') (fun t => (b t).bind b') := by
  intro s
  rw [Option.bind_assoc, ← Option.bind_assoc (m s), ← h s, Option.bind_assoc]
  exact Option.bind_congr fun s' _ => h' s'

/-- The translation keeps the condition, so both sides take the same branch. -/
theorem Comm.ite {a a' : S → Option S'} {b b' : T → Option T'} {c : S → Prop} {d : T → Prop}
    [∀ s, Decidable (c s)] [∀ t, Decidable (d t)]
    (hcd : ∀ s t, m s = some t → (c s ↔ d t)) (h : Comm m m' a b) (h' : Comm m m' a' b') :
    Comm m m' (fun s => if c s then a s else a' s) (fun t => if d t then b t else b' t) := by
  intro s
  have hb := h s
  have hb' := h' s
  cases hs : m s with
  | none =>
    rw [hs] at hb hb'
    by_cases hc : c s
    · simpa [hc] using hb
    · simpa [hc] using hb'
  | some t =>
    rw [hs] at hb hb'
    have hd := hcd s t hs
    by_cases hc : c s
    · simpa [hc, hd.mp hc] using hb
    · simpa [hc, mt hd.mpr hc] using hb'

theorem comm_const {a a' : S → Option S'} {b b' : T → Option T'} {c : Prop} [Decidable c]
    (h : Comm m m' a b) (h' : Comm m m' a' b') :
    Comm m m' (fun s => if c then a s else a' s) (fun t => if c then b t else b' t) :=
  Comm.ite (fun _ _ _ => Iff.rfl) h h'

/-- A computation in front that does not look at the sink. -/
theorem comm_bind {α : Type} (o : Option α) {a : α → S → Option S'} {b : α → T → Option T'}
    (h : ∀ x, Comm m m' (a x) (b x)) :
    Comm m m' (fun s => o.bind fun x => a x s) (fun t => o.bind fun x => b x t) := by
  cases o with
  | none => exact comm_none
  | some x => exact h x

end Comm

section Info

variable {f}

theorem mapInfo_eq {i : Info σ} {j : Info τ} (h : mapInfo f i = some j) :
    j.written = i.written ∧ j.rc = i.rc ∧ j.errno = i.errno := by
  obtain ⟨s, _, rfl⟩ := Option.map_eq_some_iff.mp h
  exact ⟨rfl, rfl, rfl⟩

theorem ok_iff {i : Info σ} {j : Info τ} (h : mapInfo f i = some j) :
    i.rc = .ok ↔ j.rc = .ok := by rw [(mapInfo_eq h).2.1]

theorem not_ok_iff {i : Info σ} {j : Info τ} (h : mapInfo f i = some j) :
    i.rc ≠ .ok ↔ j.rc ≠ .ok := not_congr (ok_iff h)

/-- The fields next to the sink may be read on the way. -/
theorem comm_fields {S' T' : Type} {n : S' → Option T'}
    {a : UInt64 → VprintRet → Int → Info σ → Option S'}
    {b : UInt64 → VprintRet → Int → Info τ → Option T'}
    (h : ∀ w r e, Comm (mapInfo f) n (a w r e) (b w r e)) :
    Comm (mapInfo f) n (fun i => a i.written i.rc i.errno i)
      (fun j => b j.written j.rc j.errno j) := by
  intro i
  have hi := h i.written i.rc i.errno i
  cases hj : mapInfo f i with
  | none => simpa [hj] using hi
  | some j =>
    obtain ⟨hw, hr, he⟩ := mapInfo_eq hj
    simpa [hj, hw, hr, he] using hi

theorem comm_setRc (rc : VprintRet) (errno : Int) :
    Comm (mapInfo f) (mapInfo f) (fun i => some { i with rc := rc, errno := errno })
      (fun j => some { j with rc := rc, errno := errno }) := by
  intro i
  cases h : f i.sink <;> simp [mapInfo, h]

theorem comm_state (args : List (BitVec 64)) (mem : Mem) :
    Comm (mapInfo f) (mapState f) (fun i => some ⟨i, args, mem⟩)
      (fun j => some ⟨j, args, mem⟩) := by
  intro i
  simp [mapState, Option.map_eq_bind]

theorem comm_shared (startLiteral format : List UInt8) :
    Comm (mapState f) (mapShared f) (fun st => some ⟨st, startLiteral, format⟩)
      (fun st => some ⟨st, startLiteral, format⟩) := by
  intro st
  simp [mapShared, Option.map_eq_bind]

theorem comm_result (ret : Int) :
    Comm (mapState f) (mapResult f) (fun st => some ⟨ret, st⟩) (fun st => some ⟨ret, st⟩) := by
  intro st
  simp [mapResult, Option.map_eq_bind]

end Info

section Transfer

variable {f} {write : WriteFn σ} {write' : WriteFn τ}

theorem checked_comm {c : Prop} [Decidable c] {act k : Info σ → Option (Info σ)}
    {act' k' : Info τ → Option (Info τ)} (hact : Comm (mapInfo f) (mapInfo f) act act')
    (hk : Comm (mapInfo f) (mapInfo f) k k') :
    Comm (mapInfo f) (mapInfo f) (fun i => checked c i act k)
      (fun j => checked c j act' k') :=
  comm_const (hact.seq (Comm.ite (fun _ _ h => ok_iff h) hk comm_some)) hk

theorem paddingLoop_comm (h : Transfers f write write') (p : UInt8) (fuel len : Nat) :
    Comm (mapInfo f) (mapInfo f) (paddingLoop write p fuel len)
      (paddingLoop write' p fuel len) := by
  induction fuel generalizing len with
  | zero => exact comm_some
  | succ fuel ih =>
    have hround := (h (List.replicate (if len ≥ 64 then 64 else len) p)).seq
      (Comm.ite (fun _ _ hm => not_ok_iff hm) comm_some (ih (len - if len ≥ 64 then 64 else len)))
    exact comm_const hround comm_some

theorem vprintfPadding_comm (h : Transfers f write write') (p : UInt8) (len : Int) :
    Comm (mapInfo f) (mapInfo f) (vprintfPadding write · p len)
      (vprintfPadding write' · p len) :=
  comm_const comm_some (paddingLoop_comm h p _ _)

theorem vprintfOutputInt_comm (h : Transfers f write write') (s : VprintSpec) (val : BitVec 64) :
    Comm (mapInfo f) (mapInfo f) (vprintfOutputInt write · s val)
      (vprintfOutputInt write' · s val) := by
  refine comm_bind _ fun plan => ?_
  have hpad := fun p len => vprintfPadding_comm h p len
  exact checked_comm (hpad _ _) (checked_comm (h _) (checked_comm (hpad _ _)
    (checked_comm (comm_bind _ fun buf => h buf) (checked_comm (hpad _ _) comm_some))))

theorem padded_comm (h : Transfers f write write') (spec : VprintSpec) (len : Int)
    (bytes : List UInt8) :
    Comm (mapInfo f) (mapInfo f) (padded write · spec len bytes)
      (padded write' · spec len bytes) := by
  have hpad := vprintfPadding_comm h (byte ' ') len
  exact Comm.seq (comm_const (c := spec.flagMinus = true) comm_some hpad)
    ((h bytes).seq (comm_const (c := spec.flagMinus = true) hpad comm_some))

theorem vprintfConvC_comm (h : Transfers f write write') (spec : VprintSpec) (c : UInt8) :
    Comm (mapInfo f) (mapInfo f) (vprintfConvC write · spec c)
      (vprintfConvC write' · spec c) :=
  comm_const (padded_comm h spec _ [c]) (h [c])

theorem vprintfConvS_comm (h : Transfers f write write') (spec : VprintSpec)
    (str : Option (List UInt8)) :
    Comm (mapInfo f) (mapInfo f) (vprintfConvS write · spec str)
      (vprintfConvS write' · spec str) :=
  comm_bind (strlen (str.getD _)) fun _ => comm_const (padded_comm h spec _ _) (h _)

theorem vprintfConvP_comm (h : Transfers f write write') (spec : VprintSpec) (ptr : BitVec 64) :
    Comm (mapInfo f) (mapInfo f) (vprintfConvP write · spec ptr)
      (vprintfConvP write' · spec ptr) :=
  comm_const (c := ptr = 0) (vprintfConvS_comm h spec _) (vprintfOutputInt_comm h _ ptr)

theorem vprintfWriteSpec_comm (h : Transfers f write write') (spec : VprintSpec)
    (args : List (BitVec 64)) (mem : Mem) :
    Comm (mapInfo f) (mapState f) (fun i => vprintfWriteSpec write ⟨i, args, mem⟩ spec)
      (fun j => vprintfWriteSpec write' ⟨j, args, mem⟩ spec) := by
  have hout : ∀ {a b} args, Comm (mapInfo f) (mapInfo f) a b → Comm (mapInfo f) (mapState f)
      (fun i => (a i).bind fun i => some ⟨i, args, mem⟩)
      (fun j => (b j).bind fun j => some ⟨j, args, mem⟩) :=
    fun args hab => hab.seq (comm_state args mem)
  unfold vprintfWriteSpec
  cases spec.conv <;> dsimp only
  case percent => exact hout args (h _)
  case c => exact comm_bind (vaArg args) fun x => hout x.2 (vprintfConvC_comm h spec _)
  case s => exact comm_bind (vaArg args) fun x => hout x.2 (vprintfConvS_comm h spec _)
  case p => exact comm_bind (vaArg args) fun x => hout x.2 (vprintfConvP_comm h spec _)
  case d =>
    exact comm_bind (vprintfConvSigned spec.length args) fun x =>
      hout x.2 (vprintfOutputInt_comm h spec _)
  case n =>
    refine comm_bind (vaArg args) fun x => ?_
    exact comm_fields (f := f)
      (a := fun w _ _ i => (vprintfConvN spec.length mem x.1.toNat w).bind fun mem =>
        some (⟨i, x.2, mem⟩ : PrintState σ))
      (b := fun w _ _ j => (vprintfConvN spec.length mem x.1.toNat w).bind fun mem =>
        some (⟨j, x.2, mem⟩ : PrintState τ))
      fun w _ _ => comm_bind _ fun mem => comm_state x.2 mem
  all_goals
    exact comm_bind (vprintfConvUnsigned spec.length args) fun x =>
      hout x.2 (vprintfOutputInt_comm h spec _)

theorem flushLiteral_comm (h : Transfers f write write') (args : List (BitVec 64)) (mem : Mem)
    (start format : List UInt8) :
    Comm (mapInfo f) (mapInfo f) (fun i => flushLiteral write ⟨⟨i, args, mem⟩, start, format⟩)
      (fun j => flushLiteral write' ⟨⟨j, args, mem⟩, start, format⟩) :=
  comm_const (c := start.length - format.length ≠ 0)
    (h (start.take (start.length - format.length))) comm_some

/-- The state of the loop, put together from its parts. -/
theorem comm_pack (args : List (BitVec 64)) (mem : Mem) (start format : List UInt8) :
    Comm (mapInfo f) (mapShared f) (fun i => some ⟨⟨i, args, mem⟩, start, format⟩)
      (fun j => some ⟨⟨j, args, mem⟩, start, format⟩) :=
  (comm_state args mem).seq (comm_shared start format)

theorem Comm.unpack {S' T' : Type} {m' : S' → Option T'} {a : SharedState σ → Option S'}
    {b : SharedState τ → Option T'}
    (h : ∀ args mem start format, Comm (mapInfo f) m' (fun i => a ⟨⟨i, args, mem⟩, start, format⟩)
      (fun j => b ⟨⟨j, args, mem⟩, start, format⟩)) : Comm (mapShared f) m' a b := by
  rintro ⟨⟨i, args, mem⟩, start, format⟩
  rw [h args mem start format i]
  simp only [mapShared, mapState]
  cases mapInfo f i <;> rfl

theorem mapState_ok_iff {s : PrintState σ} {t : PrintState τ} (h : mapState f s = some t) :
    s.info.rc ≠ .ok ↔ t.info.rc ≠ .ok := by
  obtain ⟨j, hj, rfl⟩ := Option.map_eq_some_iff.mp h
  exact not_ok_iff hj

theorem writeDirective_comm (h : Transfers f write write') (args : List (BitVec 64)) (mem : Mem)
    (start : List UInt8) (p : ParseState) :
    Comm (mapInfo f) (mapShared f) (fun i => writeDirective write ⟨i, args, mem⟩ start p)
      (fun j => writeDirective write' ⟨j, args, mem⟩ start p) := by
  have hset := comm_setRc (f := f) p.rc p.errno
  refine comm_const (c := p.rc ≠ .ok) (hset.seq (comm_pack p.args mem start p.format)) ?_
  refine (hset.seq (vprintfWriteSpec_comm h p.spec p.args mem)).seq ?_
  exact Comm.ite (fun _ _ hm => mapState_ok_iff hm) (comm_shared start p.format)
    (comm_shared p.format p.format)

theorem directiveStep_comm (h : Transfers f write write') :
    Comm (mapShared f) (mapShared f) (directiveStep write) (directiveStep write') := by
  refine Comm.unpack fun args mem start format => ?_
  have hparse := comm_fields (f := f) (n := mapShared f)
    (a := fun _ rc errno i => (vprintfParseSpec ⟨format.tail, zeroSpec, args, errno, rc⟩).bind
      fun p => writeDirective write ⟨i, args, mem⟩ start p)
    (b := fun _ rc errno j => (vprintfParseSpec ⟨format.tail, zeroSpec, args, errno, rc⟩).bind
      fun p => writeDirective write' ⟨j, args, mem⟩ start p)
    fun _ rc errno => comm_bind _ fun p => writeDirective_comm h args mem start p
  exact (flushLiteral_comm h args mem start format).seq
    (Comm.ite (fun _ _ hm => not_ok_iff hm) (comm_pack args mem start format) hparse)

theorem sharedLoop_comm (h : Transfers f write write') (fuel : Nat) :
    Comm (mapShared f) (mapShared f) (sharedLoop write fuel) (sharedLoop write' fuel) := by
  induction fuel with
  | zero => exact comm_none
  | succ fuel ih =>
    refine Comm.unpack fun args mem start format => ?_
    have hpack := comm_pack (f := f) args mem start format
    have hstep := hpack.seq ((directiveStep_comm h).seq ih)
    have hskip := (comm_pack (f := f) args mem start format.tail).seq ih
    exact Comm.ite (fun _ _ hm => ok_iff hm)
      (comm_bind format.head? fun c => comm_const (c := c = 0) hpack
        (comm_const (c := c = byte '%') hstep hskip)) hpack

theorem vprintfShared_comm (h : Transfers f write write') (format : List UInt8)
    (args : List (BitVec 64)) (mem : Mem) :
    Comm (mapInfo f) (mapResult f) (fun i => vprintfShared write ⟨i, args, mem⟩ format)
      (fun j => vprintfShared write' ⟨j, args, mem⟩ format) := by
  have hloop := (comm_pack (f := f) args mem format format).seq
    (sharedLoop_comm h (format.length + 1))
  refine hloop.seq (Comm.unpack fun args mem start format => ?_)
  have hflush := Comm.ite (m := mapInfo f) (fun _ _ hm => ok_iff hm)
    (flushLiteral_comm h args mem start format) comm_some
  have hresult := comm_fields (f := f) (n := mapResult f)
    (a := fun w rc _ i => some
      ⟨if rc = .err then -1 else toSigned 32 w.toNat, (⟨i, args, mem⟩ : PrintState σ)⟩)
    (b := fun w rc _ j => some
      ⟨if rc = .err then -1 else toSigned 32 w.toNat, (⟨j, args, mem⟩ : PrintState τ)⟩)
    fun w rc _ => (comm_state args mem).seq (comm_result _)
  exact hflush.seq hresult

end Transfer

/-- The calls on a descriptor that takes everything, as one byte sequence. -/
theorem transfers_fd :
    Transfers (fun s : Fd => some s.calls.flatten) (writeFd completeWrites) writeList := by
  intro buf i
  by_cases h : buf.length = 0
  · obtain rfl := List.length_eq_zero_iff.mp h
    simp [writeFd, writeList, mapInfo]
  · simp [writeFd, completeWrites, writeList, mapInfo, h]

/-- What `n` bytes at `buffer` look like when `bytes` went to them; a fault when
the object ends before. -/
def clip (buffer : List UInt8) (n : Nat) (bytes : List UInt8) : Option StrSink :=
  let k := min bytes.length n
  if k ≤ buffer.length then some ⟨bytes.take k ++ buffer.drop k, k, n - k⟩ else none

theorem transfers_str (buffer : List UInt8) (n : Nat) :
    Transfers (clip buffer n) writeList writeStr := by
  intro buf i
  obtain ⟨w, rc, e, G⟩ := i
  simp only [writeList, Option.bind_some, mapInfo, clip, List.length_append]
  by_cases hfit : min G.length n ≤ buffer.length
  · by_cases hstop : n ≤ G.length ∨ buf.length = 0
    · have hk : min (G.length + buf.length) n = min G.length n := by omega
      have htake : (G ++ buf).take (min G.length n) = G.take (min G.length n) :=
        List.take_append_of_le_length (by omega)
      have hzero : n - min G.length n = 0 ∨ buf.length = 0 := by omega
      simp only [hk, if_pos hfit, htake, Option.map_some, Option.bind_some, writeStr, if_pos hzero]
    · have hlt : G.length < n := by omega
      have hk : min G.length n = G.length := by omega
      have hcopy : (if buf.length < n - G.length then buf.length else n - G.length) =
          min buf.length (n - G.length) := by split <;> omega
      generalize hc : min buf.length (n - G.length) = copy at hcopy
      have hk' : min (G.length + buf.length) n = G.length + copy := by omega
      have hlive : ¬(n - G.length = 0 ∨ buf.length = 0) := by omega
      have hsize : (G ++ buffer.drop G.length).length = buffer.length := by
        rw [List.length_append, List.length_drop]
        omega
      rw [hk] at hfit ⊢
      rw [hk', if_pos hfit, Option.map_some, Option.bind_some, List.take_length]
      simp only [writeStr, hlive, if_false, hcopy, hsize]
      by_cases hroom : G.length + copy ≤ buffer.length
      · have hdrop : (G ++ buffer.drop G.length).drop (G.length + copy) =
            buffer.drop (G.length + copy) := by
          rw [List.drop_append, List.drop_drop]
          simp
        have htake : (G ++ buf).take (G.length + copy) = G ++ buf.take copy := by
          rw [List.take_append, List.take_of_length_le (by omega)]
          simp
        simp [hroom, hdrop, htake, Nat.sub_sub]
      · simp [hroom]
  · rw [if_neg hfit, if_neg (by omega)]
    rfl

/-- The formatter into a buffer, from the formatter on a descriptor. -/
theorem vprintfShared_str (buffer : List UInt8) (n : Nat) (format : List UInt8)
    (args : List (BitVec 64)) (mem : Mem) (errno : Int) :
    vprintfShared writeStr ⟨⟨0, .ok, errno, ⟨buffer, 0, n⟩⟩, args, mem⟩ format =
      (vprintfShared writeList ⟨⟨0, .ok, errno, []⟩, args, mem⟩ format).bind
        (mapResult (clip buffer n)) := by
  have h := vprintfShared_comm (transfers_str buffer n) format args mem ⟨0, .ok, errno, []⟩
  rw [h]
  simp [mapInfo, clip]

theorem vfprintf_list (format : List UInt8) (args : List (BitVec 64)) (mem : Mem) (errno : Int) :
    vprintfShared writeList ⟨⟨0, .ok, errno, []⟩, args, mem⟩ format =
      (vfprintf completeWrites format args mem errno).bind
        (mapResult fun s => some s.calls.flatten) := by
  rw [vfprintf, vprintfShared_comm transfers_fd format args mem ⟨0, .ok, errno, ⟨[]⟩⟩]
  rfl

/-- What `vsnprintf` leaves in the buffer when `vfprintf` hands `bytes` to the kernel. -/
def terminated (buffer : List UInt8) (bufSize : Nat) (bytes : List UInt8) :
    Option (List UInt8) :=
  if bufSize = 0 then some buffer
  else
    let k := min bytes.length (bufSize - 1)
    if k < buffer.length then some (bytes.take k ++ 0 :: buffer.drop (k + 1)) else none

/-- `vsnprintf` is the run that collects all bytes, cut to the buffer. -/
theorem vsnprintf_list {bufSize : Nat} (hsize : bufSize < 2 ^ 64) (buffer : List UInt8)
    (format : List UInt8) (args : List (BitVec 64)) (mem : Mem) (errno : Int) :
    vsnprintf buffer bufSize format args mem errno =
      (vprintfShared writeList ⟨⟨0, .ok, errno, []⟩, args, mem⟩ format).bind fun r =>
        (terminated buffer bufSize r.st.info.sink).map fun buffer =>
          ⟨r.ret, buffer, r.st.args, r.st.mem, r.st.info.errno⟩ := by
  rw [vsnprintf, vprintfShared_str]
  simp only [Option.bind_assoc, Option.bind_eq_bind]
  refine Option.bind_congr fun r _ => ?_
  generalize hF : r.st.info.sink = F
  simp only [mapResult, mapState, mapInfo, hF, clip, terminated]
  by_cases h0 : bufSize = 0
  · simp [h0]
  · have hpos : bufSize > 0 := by omega
    simp only [h0, if_false, hpos, if_true]
    have hn : min F.length (bufSize - 1) ≤ bufSize - 1 := by omega
    have hF : min F.length (bufSize - 1) ≤ F.length := by omega
    generalize min F.length (bufSize - 1) = k at hn hF ⊢
    have hindex : toSize ((bufSize : Int) - (bufSize - 1 - k : Nat) - 1) = k := by
      rw [toSize_of_nonneg (by omega) (by omega)]
      omega
    by_cases hle : k ≤ buffer.length
    · have hlen : (F.take k ++ buffer.drop k).length = buffer.length := by
        simp only [List.length_append, List.length_take, List.length_drop]
        omega
      simp only [hle, if_true, Option.map_some, Option.bind_some, hindex, hlen]
      by_cases hlt : k < buffer.length
      · have hset : (F.take k ++ buffer.drop k).set k 0 = F.take k ++ 0 :: buffer.drop (k + 1) := by
          have htake : (F.take k).length = k := by rw [List.length_take, Nat.min_eq_left hF]
          rw [List.set_append_right k 0 htake.le, htake, Nat.sub_self,
            List.drop_eq_getElem_cons hlt, List.set_cons_zero]
        simp [hlt, hset]
      · simp [hlt]
    · have hlt : ¬k < buffer.length := by omega
      simp [hle, hlt]

/-- The two agree in everything but the sink, for every buffer and size. -/
theorem vsnprintf_eq_vfprintf {bufSize : Nat} (hsize : bufSize < 2 ^ 64) (buffer : List UInt8)
    (format : List UInt8) (args : List (BitVec 64)) (mem : Mem) (errno : Int) :
    vsnprintf buffer bufSize format args mem errno =
      (vfprintf completeWrites format args mem errno).bind fun r =>
        (terminated buffer bufSize r.st.info.sink.calls.flatten).map fun buffer =>
          ⟨r.ret, buffer, r.st.args, r.st.mem, r.st.info.errno⟩ := by
  rw [vsnprintf_list hsize, vfprintf_list, Option.bind_assoc]
  rfl

/-- `vsnprintf` and `vsprintf` are `vfprintf` cut to the buffer. -/
theorem vsnprintf_vsprintf_truncate_vfprintf :
    (∀ bufSize, bufSize < 2 ^ 64 → ∀ buffer format args mem errno,
      vsnprintf buffer bufSize format args mem errno =
        (vfprintf completeWrites format args mem errno).bind fun r =>
          (terminated buffer bufSize r.st.info.sink.calls.flatten).map fun buffer =>
            ⟨r.ret, buffer, r.st.args, r.st.mem, r.st.info.errno⟩) ∧
    ∀ buffer format args mem errno,
      vsprintf buffer format args mem errno =
        (vfprintf completeWrites format args mem errno).bind fun r =>
          (terminated buffer sizeMax r.st.info.sink.calls.flatten).map fun buffer =>
            ⟨r.ret, buffer, r.st.args, r.st.mem, r.st.info.errno⟩ :=
  ⟨fun _ hsize => vsnprintf_eq_vfprintf hsize, vsnprintf_eq_vfprintf (by decide)⟩

/-- `"a%.4db"` with the argument 123 into a buffer of 4 in an object of 6. -/
theorem vsnprintf_vsprintf_truncate_vfprintf_123 :
    (vsnprintf (List.replicate 6 7) 4 [97, 37, 46, 52, 100, 98, 0] [123] (fun _ => none) 0).map
      (fun r => (r.ret, r.buffer, r.errno)) = some (6, [97, 48, 49, 0, 7, 7], 0) :=
  (congrArg (Option.map _) (vsnprintf_vsprintf_truncate_vfprintf.1 4 (by decide)
    (List.replicate 6 7) [97, 37, 46, 52, 100, 98, 0] [123] (fun _ => none) 0)).trans
    (by decide +kernel)

end PrintfSink
