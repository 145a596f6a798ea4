import Libdeepc.PrintfRoundTrip

/-!
# Lists of numbers as text

One `sprintf` prints a list of numbers with white space between them. `strtol`
and `strtoul`, each called where the one before it has stopped, read them back.
-/

namespace NumberLists

open CString MachineInt Numerals NumberParsing StrtolLaw PrintfWrite PrintfShared IntRendering
open FormatGrammar FormatParser FormatMeaning FormatLaw RenderingInverse PrintfRoundTrip

section Rendering

/-- No digit in any base. -/
def Stop (c : UInt8) : Prop := digitValue c = 36

instance (c : UInt8) : Decidable (Stop c) := inferInstanceAs (Decidable (_ = _))

/-- Only 0 in precision 0 is printed without a digit, and `#` gives it one in `%o`. -/
def Shown (L : Layout) (conv : VprintfConv) (v : Int) : Prop :=
  v = 0 → L.precision = some 0 → conv = .o ∧ L.number = true

instance (L : Layout) (conv : VprintfConv) (v : Int) : Decidable (Shown L conv v) :=
  inferInstanceAs (Decidable (_ → _ → _))

theorem stop_of_space {c : UInt8} (h : isSpaceByte c = true) : Stop c := by
  simp only [isSpaceByte, decide_eq_true_eq] at h
  rw [Stop, digitValue]
  split_ifs <;> omega

theorem Stop.ne {c : UInt8} (h : Stop c) {d : Char} (hd : digitValue (byte d) < 36) :
    c ≠ byte d := by
  rintro rfl
  rw [Stop] at h
  omega

theorem Stop.not_digit {c : UInt8} (h : Stop c) {b : Nat} (hb : b ≤ 36) :
    isDigitOf b c = false := by
  rw [isDigitOf, h]
  exact decide_eq_false (not_lt.mpr hb)

theorem place_shape (L : Layout) (zeroFill : Bool) (pre body : List UInt8) : ∃ i f k,
    place L zeroFill pre body = List.replicate i (byte ' ') ++
      (pre ++ (List.replicate f (byte '0') ++ body ++ List.replicate k (byte ' '))) := by
  generalize hfill : L.width - (pre.length + body.length) = fill
  simp only [place, hfill]
  by_cases hminus : L.minus = true
  · exact ⟨0, 0, fill, by simp [hminus]⟩
  · by_cases hzero : zeroFill = true
    · exact ⟨0, fill, 0, by simp [hminus, hzero]⟩
    · exact ⟨fill, 0, 0, by simp [hminus, hzero]⟩

/-- The digits of a rendering, behind the spaces and the sign or base prefix. -/
structure Numeral (conv : VprintfConv) (n : Nat) (ds : List UInt8) : Prop where
  zeros : ∃ j, ds = List.replicate j (byte '0') ++ digits conv n
  ne_nil : ds ≠ []

theorem zeroExtended_ne_nil {L : Layout} {conv : VprintfConv} {v : Int} (h : Shown L conv v) :
    zeroExtended L conv v.natAbs ≠ [] := by
  intro hnil
  simp only [zeroExtended, List.append_eq_nil_iff, List.replicate_eq_nil_iff] at hnil
  obtain ⟨hleast, hdigits⟩ := hnil
  have hv : v = 0 := by
    rw [digits, List.map_eq_nil_iff, numeral_eq_nil_iff] at hdigits
    omega
  rw [hdigits, List.length_nil, Nat.sub_zero] at hleast
  cases hp : L.precision with
  | none => simp [leastDigits, hp] at hleast
  | some p =>
    simp only [leastDigits, hp, Option.getD_some] at hleast
    split at hleast
    · cases hleast
    · rename_i hnot
      subst hleast
      obtain ⟨hconv, hnumber⟩ := h hv hp
      exact hnot ⟨hconv, hnumber, Nat.zero_le _⟩

/-- A rendering that shows its number. -/
theorem renderInt_numeral {L : Layout} {conv : VprintfConv} {v : Int} (h : Shown L conv v) :
    ∃ i ds k, renderInt L conv v = List.replicate i (byte ' ') ++
        (numberPrefix L conv v ++ (ds ++ List.replicate k (byte ' '))) ∧
      Numeral conv v.natAbs ds ∧
      (conv = .o → L.number = true → ds.head? = some (byte '0')) := by
  obtain ⟨i, f, k, hplace⟩ := place_shape L (L.zero && L.precision.isNone) (numberPrefix L conv v)
    (zeroExtended L conv v.natAbs)
  refine ⟨i, _, k, hplace, ⟨?_, ?_⟩, fun hconv hnumber => ?_⟩
  · refine ⟨f + (leastDigits L conv (digits conv v.natAbs).length -
      (digits conv v.natAbs).length), ?_⟩
    rw [zeroExtended, List.replicate_add, List.append_assoc]
  · exact fun hnil => zeroExtended_ne_nil h (List.append_eq_nil_iff.mp hnil).2
  · have hleast : 1 ≤ leastDigits L conv (digits conv v.natAbs).length -
        (digits conv v.natAbs).length := by
      simp only [leastDigits, hconv, hnumber, true_and]
      split <;> omega
    obtain ⟨j, hj⟩ := Nat.exists_eq_add_of_le' hleast
    rw [zeroExtended, hj, ← List.append_assoc, ← List.replicate_add, ← Nat.add_assoc,
      List.replicate_succ]
    rfl

end Rendering

section Reading

variable {conv : VprintfConv} {n : Nat} {ds : List UInt8}

theorem Numeral.mem (h : Numeral conv n ds) {c : UInt8} (hc : c ∈ ds) :
    isSpaceByte c = false ∧ c ∉ [byte '-', byte '+', byte 'x', byte 'X', 0] := by
  obtain ⟨j, rfl⟩ := h.zeros
  rcases List.mem_append.mp hc with hz | hd
  · rw [List.eq_of_mem_replicate hz]
    decide
  · obtain ⟨d, hlt, rfl⟩ := exists_of_mem_digits hd
    exact (digitChar_spec conv hlt).2.2

theorem Numeral.digit (h : Numeral conv n ds) {b : Nat} (lo : 2 ≤ b)
    (hb : b = baseOf conv ∨ n = 0) : ∀ c ∈ ds, isDigitOf b c = true := by
  intro c hc
  obtain ⟨j, rfl⟩ := h.zeros
  rcases List.mem_append.mp hc with hz | hd
  · rw [List.eq_of_mem_replicate hz]
    exact isDigitOf_byte_zero lo
  · rcases hb with rfl | rfl
    · obtain ⟨d, hlt, rfl⟩ := exists_of_mem_digits hd
      exact (digitChar_spec conv hlt).1
    · rw [digits_zero] at hd
      cases hd

theorem Numeral.value (h : Numeral conv n ds) {b : Nat} (hb : b = baseOf conv ∨ n = 0) :
    value b (ds.map digitValue) = n := by
  have hzero : digitValue (byte '0') = 0 := by decide
  obtain ⟨j, rfl⟩ := h.zeros
  rw [List.map_append, List.map_replicate, hzero, value_leadingZeros]
  rcases hb with rfl | rfl
  · rw [map_digitValue_digits, value_numeral]
  · rw [digits_zero]
    rfl

/-- What a reader of this base makes of a string, and where it stops. -/
def Reads (s : List UInt8) (base : Nat) (negative : Bool) (n : Nat) (e : List UInt8) : Prop :=
  (subject s base).negative = negative ∧ (subject s base).magnitude = n ∧
    afterDigits (subject s base).base (subjectTail s base) = e

variable {c : UInt8} {u : List UInt8} {base : Nat}

theorem Numeral.run (h : Numeral conv n ds) (hc : Stop c) (u : List UInt8) {b : Nat}
    (lo : 2 ≤ b) (hi : b ≤ 36) (hb : b = baseOf conv ∨ n = 0) :
    Numerals.value b (digitRun b (ds ++ c :: u)) = n ∧ afterDigits b (ds ++ c :: u) = c :: u := by
  have hdigit := h.digit lo hb
  constructor
  · rw [(digitRun_append hdigit _).1, digitRun_cons_of_not (hc.not_digit hi), List.append_nil]
    exact h.value hb
  · rw [afterDigits, List.dropWhile_append_of_pos hdigit, List.dropWhile_cons_of_neg]
    rw [hc.not_digit hi]
    exact Bool.false_ne_true

theorem Numeral.plain (h : Numeral conv n ds) (hc : Stop c) (u : List UInt8) :
    hexPrefixed (ds ++ c :: u) = false ∧ dropSign (ds ++ c :: u) = ds ++ c :: u ∧
      isNegative (ds ++ c :: u) = false ∧
      (ds ++ c :: u).dropWhile isSpaceByte = ds ++ c :: u := by
  have hx : c ≠ byte 'x' := hc.ne (by decide)
  have hX : c ≠ byte 'X' := hc.ne (by decide)
  cases hds : ds with
  | nil => exact absurd hds h.ne_nil
  | cons d ds' =>
    have hd := h.mem (hds ▸ List.mem_cons_self : d ∈ ds)
    simp only [List.mem_cons, List.not_mem_nil, or_false, not_or] at hd
    refine ⟨?_, by simp [dropSign, hd], by simp [isNegative, hd], by simp [hd]⟩
    cases hds' : ds' with
    | nil => simp [hexPrefixed, hx, hX]
    | cons d' ds'' =>
      have hd' := h.mem (by simp [hds, hds'] : d' ∈ ds)
      simp only [List.mem_cons, List.not_mem_nil, or_false, not_or] at hd'
      simp [hexPrefixed, hd']

/-- The base in which digits without a prefix are read. -/
theorem Numeral.bounds (h : Numeral conv n ds) (hc : Stop c) (u : List UInt8)
    (hbase : base = baseOf conv ∨
      base = 0 ∧ (conv = .o ∧ ds.head? = some (byte '0') ∨ n = 0)) :
    2 ≤ subjectBase (ds ++ c :: u) base ∧ subjectBase (ds ++ c :: u) base ≤ 36 ∧
      (subjectBase (ds ++ c :: u) base = baseOf conv ∨ n = 0) := by
  have hbounds := baseOf_bounds conv
  have hle : baseOf conv ≤ 36 := by cases conv <;> decide
  obtain ⟨hhex, _⟩ := h.plain hc u
  rcases hbase with rfl | ⟨rfl, h0⟩
  · rw [subjectBase, if_pos (by omega)]
    exact ⟨by omega, hle, .inl rfl⟩
  · simp only [subjectBase, ne_eq, not_true_eq_false, if_false, hhex, Bool.false_eq_true]
    rcases h0 with ⟨rfl, hhead⟩ | hn
    · have hzero : (ds ++ c :: u).head? = some (byte '0') := by
        rw [List.head?_append, hhead]
        rfl
      rw [if_pos hzero]
      exact ⟨by decide, by decide, .inl rfl⟩
    · refine ⟨?_, ?_, .inr hn⟩
      all_goals split <;> decide

theorem reads_plain (h : Numeral conv n ds) (hc : Stop c) (i : Nat)
    (hbase : base = baseOf conv ∨
      base = 0 ∧ (conv = .o ∧ ds.head? = some (byte '0') ∨ n = 0)) :
    Reads (List.replicate i (byte ' ') ++ (ds ++ c :: u)) base false n (c :: u) := by
  obtain ⟨hhex, hsign, hneg, hspace⟩ := h.plain hc u
  obtain ⟨lo, hi, hb⟩ := h.bounds hc u hbase
  obtain ⟨hvalue, hend⟩ := h.run hc u lo hi hb
  simp only [Reads, subject, subjectTail, Subject.magnitude, dropWhile_spaces, hspace, hhex, hsign,
    hneg, Bool.false_eq_true, and_false, if_false]
  exact ⟨trivial, hvalue, hend⟩

theorem reads_signed (h : Numeral conv n ds) (hc : Stop c) (i : Nat) {sign : UInt8}
    (hsign : sign = byte '-' ∨ sign = byte '+') (hbase : base = baseOf conv) :
    Reads (List.replicate i (byte ' ') ++ (sign :: (ds ++ c :: u))) base
      (decide (sign = byte '-')) n (c :: u) := by
  obtain ⟨hhex, _, _, _⟩ := h.plain hc u
  obtain ⟨lo, hi, hb⟩ := h.bounds hc u (.inl hbase)
  obtain ⟨hvalue, hend⟩ := h.run hc u lo hi hb
  have hspace : isSpaceByte sign = false := by rcases hsign with rfl | rfl <;> decide
  have hdrop : dropSign (sign :: (ds ++ c :: u)) = ds ++ c :: u := by
    rw [dropSign, if_pos]
    · rfl
    · rcases hsign with rfl | rfl
      · exact .inl rfl
      · exact .inr rfl
  simp only [Reads, subject, subjectTail, Subject.magnitude, dropWhile_spaces,
    List.dropWhile_cons, hspace, hhex, hdrop, Bool.false_eq_true, and_false, if_false]
  exact ⟨by simp [isNegative], hvalue, hend⟩

theorem reads_hex (h : Numeral conv n ds) (hc : Stop c) (i : Nat) {x : UInt8}
    (hx : x = byte 'x' ∨ x = byte 'X') (hconv : baseOf conv = 16)
    (hbase : base = 0 ∨ base = 16) :
    Reads (List.replicate i (byte ' ') ++ (byte '0' :: x :: (ds ++ c :: u))) base false n
      (c :: u) := by
  obtain ⟨hvalue, hend⟩ := h.run hc u (by decide : 2 ≤ 16) (by decide) (.inl hconv.symm)
  have hhex : hexPrefixed (byte '0' :: x :: (ds ++ c :: u)) = true := by
    rcases hx with rfl | rfl <;> simp [hexPrefixed]
  have hspace : isSpaceByte (byte '0') = false := by decide
  obtain ⟨hsign, hneg⟩ := dropSign_plain (s := byte '0' :: x :: (ds ++ c :: u))
    fun d hd => by rw [← Option.some.inj hd]; decide
  have hb : subjectBase (byte '0' :: x :: (ds ++ c :: u)) base = 16 := by
    rcases hbase with rfl | rfl <;> simp [subjectBase, hhex]
  simp only [Reads, subject, subjectTail, Subject.magnitude, dropWhile_spaces,
    List.dropWhile_cons, hspace, hsign, hneg, hb, hhex, hbase, Bool.false_eq_true, if_false,
    and_self, if_true]
  exact ⟨trivial, hvalue, hend⟩

/-- A rendering is read back, and the reader stops behind its last digit. -/
theorem reads_renderInt {L : Layout} {v : Int} (hconv : IsInt conv) (hv : conv ≠ .d → 0 ≤ v)
    (hbase : ReadsBack L conv base) (hshown : Shown L conv v) (hc : Stop c) :
    ∃ k, Reads (renderInt L conv v ++ c :: u) base (decide (v < 0)) v.natAbs
      (List.replicate k (byte ' ') ++ c :: u) := by
  obtain ⟨i, ds, k, hshape, hds, hhead⟩ := renderInt_numeral hshown
  have hstop : ∃ c' u', Stop c' ∧ List.replicate k (byte ' ') ++ c :: u = c' :: u' := by
    cases k with
    | zero => exact ⟨c, u, hc, rfl⟩
    | succ k => exact ⟨byte ' ', _, by decide, rfl⟩
  obtain ⟨c', u', hc', heq⟩ := hstop
  refine ⟨k, ?_⟩
  rw [hshape, List.append_assoc, List.append_assoc, List.append_assoc, heq]
  have hd : conv = .d → base = baseOf conv := by
    rintro rfl
    exact hbase.resolve_right fun h => by simp at h
  rcases numberPrefix_cases hconv hv with
    ⟨hpre, hpos, hx⟩ | ⟨hpre, hpos, hd'⟩ | ⟨sign, hpre, hsign, hd'⟩ | ⟨x, hpre, hx, h16, hpos⟩
  · have hb : base = baseOf conv ∨
        base = 0 ∧ (conv = .o ∧ ds.head? = some (byte '0') ∨ v.natAbs = 0) := by
      rcases hbase with h | ⟨h0, hn, ho | hx'⟩
      · exact .inl h
      · exact .inr ⟨h0, .inl ⟨ho, hhead ho hn⟩⟩
      · exact .inr ⟨h0, .inr (by rw [hx hx' hn]; rfl)⟩
    rw [hpre, List.nil_append, decide_eq_false (not_lt.mpr hpos)]
    exact reads_plain hds hc' i hb
  · rw [hpre, List.singleton_append, ← List.singleton_append, ← List.append_assoc,
      ← List.replicate_succ', decide_eq_false (not_lt.mpr hpos)]
    exact reads_plain hds hc' (i + 1) (.inl (hd hd'))
  · have hread := reads_signed (u := u') hds hc' i (hsign.imp And.left And.left) (hd hd')
    have hneg : decide (v < 0) = decide (sign = byte '-') := by
      rcases hsign with ⟨rfl, hneg⟩ | ⟨rfl, hpos⟩
      · simp [hneg]
      · have hne : byte '+' ≠ byte '-' := by decide
        simp [hne, hpos]
    rw [hpre, List.singleton_append, hneg]
    exact hread
  · have hbase16 : base = 0 ∨ base = 16 := by
      rcases hbase with h | ⟨h, _⟩
      · exact .inr (h.trans h16)
      · exact .inl h
    rw [hpre, decide_eq_false (not_lt.mpr hpos)]
    exact reads_hex hds hc' i hx h16 hbase16

end Reading

section Lists

abbrev Blank := { c : UInt8 // isSpaceByte c = true }

/-- A directive with its argument, the white space behind it and the base to read it in. -/
structure Item where
  directive : Directive
  slot : BitVec 64
  blanks : List Blank
  base : Nat
  literal : Literal directive.toLead
  reader : (directive.conv = .d ∨ directive.conv = .i) ∧ base = 10 ∨ UnsignedBase directive base

def Item.signed (item : Item) : Bool := item.directive.conv.conv = .d

def Item.value (item : Item) : Int :=
  if item.signed then slotInt item.slot else slotUint item.slot

def Item.rendering (item : Item) : List UInt8 :=
  renderInt (literalLayout item.directive.toLead) item.directive.conv.conv item.value

def Item.Shown (item : Item) : Prop :=
  NumberLists.Shown (literalLayout item.directive.toLead) item.directive.conv.conv item.value

def blankPiece (c : Blank) : Piece :=
  .literal c.1 ⟨by rintro h; exact absurd (h ▸ c.2) (by decide),
    by rintro h; exact absurd (h ▸ c.2) (by decide)⟩

def Item.pieces (item : Item) : List Piece :=
  .directive item.directive :: item.blanks.map blankPiece

def Item.text (item : Item) : List UInt8 := item.rendering ++ item.blanks.map Subtype.val

instance (item : Item) : Decidable item.Shown :=
  inferInstanceAs (Decidable (NumberLists.Shown ..))

/-- There is white space behind every number but the last. -/
def Separated : List Item → Prop
  | [] | [_] => True
  | item :: next :: items => item.blanks ≠ [] ∧ Separated (next :: items)

instance Separated.decidable : ∀ items, Decidable (Separated items)
  | [] | [_] => isTrue trivial
  | item :: next :: items =>
    have : Decidable (Separated (next :: items)) := Separated.decidable (next :: items)
    inferInstanceAs (Decidable (item.blanks ≠ [] ∧ Separated (next :: items)))

def format (items : List Item) : List UInt8 := piecesText (items.flatMap Item.pieces)

def readNumber (signed : Bool) (base : Nat) (s : List UInt8) (errno : Int) : Option StrtoResult :=
  if signed then strtol s base errno else strtoul s base errno

/-- One number after the other, each from where the last call has stopped. -/
def readNumbers : List (Bool × Nat) → List UInt8 → Int →
    Option (List Int × List UInt8 × Int)
  | [], s, errno => some ([], s, errno)
  | (signed, base) :: readers, s, errno => do
    let r ← readNumber signed base s errno
    let e ← r.strEnd
    let (values, rest) ← readNumbers readers e r.errno
    some (r.value :: values, rest)

def Item.readerOf (item : Item) : Bool × Nat := (item.signed, item.base)

theorem Item.signed_or (item : Item) :
    (item.directive.conv = .d ∨ item.directive.conv = .i) ∧ item.signed = true ∧ item.base = 10 ∨
      UnsignedBase item.directive item.base ∧ item.signed = false := by
  rcases item.reader with ⟨hconv, hbase⟩ | h
  · refine .inl ⟨hconv, ?_, hbase⟩
    rcases hconv with hconv | hconv <;> rw [Item.signed, hconv] <;> rfl
  · refine .inr ⟨h, ?_⟩
    rcases h.1 with hconv | hconv | hconv | hconv <;> rw [Item.signed, hconv] <;> rfl

theorem run_blanks (blanks : List Blank) (env : Env) :
    runPieces codeLength env (blanks.map blankPiece) =
      some { env with out := env.out ++ blanks.map Subtype.val } := by
  induction blanks generalizing env with
  | nil => simp [runPieces]
  | cons c blanks ih =>
    have hrest := ih { env with out := env.out ++ [c.1] }
    rw [List.append_assoc] at hrest
    exact hrest

theorem run_directive (item : Item) (args : List (BitVec 64)) (mem : Memory.Mem)
    (out : List UInt8) :
    runDirective codeLength item.directive ⟨item.slot :: args, mem, out⟩ =
      some ⟨args, mem, out ++ item.rendering⟩ := by
  have hlen : codeLength item.directive.length = .none := by
    rw [item.literal.2.2]
    rfl
  rcases item.signed_or with ⟨hconv, hsigned, _⟩ | ⟨hunsigned, hsigned⟩
  · rcases hconv with hconv | hconv <;>
      simp [runDirective, runDirectiveWith, layout_of_literal item.literal, vaArg, ConvChar.conv,
        signedArg, hlen, hconv, Item.rendering, Item.value, hsigned]
  · rcases hunsigned.1 with hconv | hconv | hconv | hconv <;>
      simp [runDirective, runDirectiveWith, layout_of_literal item.literal, vaArg, ConvChar.conv,
        unsignedArg, hlen, hconv, Item.rendering, Item.value, hsigned]

theorem runPieces_append (env : Env) (ps qs : List Piece) :
    runPieces codeLength env (ps ++ qs) =
      (runPieces codeLength env ps).bind fun env' => runPieces codeLength env' qs := by
  rw [runPieces, List.foldlM_append]
  rfl

theorem run_items (items : List Item) (args : List (BitVec 64)) (mem : Memory.Mem)
    (out : List UInt8) :
    runPieces codeLength ⟨items.map Item.slot ++ args, mem, out⟩ (items.flatMap Item.pieces) =
      some ⟨args, mem, out ++ items.flatMap Item.text⟩ := by
  induction items generalizing out with
  | nil => simp [runPieces]
  | cons item items ih =>
    have hdirective := run_directive item (items.map Item.slot ++ args) mem out
    have hitem : runPieces codeLength ⟨item.slot :: (items.map Item.slot ++ args), mem, out⟩
        item.pieces = some ⟨items.map Item.slot ++ args, mem, out ++ item.text⟩ := by
      have hrest := run_blanks item.blanks
        ⟨items.map Item.slot ++ args, mem, out ++ item.rendering⟩
      rw [List.append_assoc] at hrest
      rw [runPieces, Item.pieces, List.foldlM_cons, runPiece, hdirective]
      exact hrest
    rw [List.flatMap_cons, runPieces_append, List.map_cons, List.cons_append, hitem,
      Option.bind_some, ih, List.flatMap_cons, List.append_assoc]

/-- What is left of a text when nothing but white space stands before its end. -/
def SpaceLeft (s : List UInt8) : Prop := ∃ blanks tail, s = blanks ++ 0 :: tail ∧
  ∀ c ∈ blanks, isSpaceByte c = true

theorem exists_stop (item : Item) (items : List Item) (h : Separated (item :: items))
    (tail : List UInt8) : ∃ c u, Stop c ∧
      item.blanks.map Subtype.val ++ (items.flatMap Item.text ++ 0 :: tail) = c :: u := by
  cases hblanks : item.blanks with
  | cons c blanks => exact ⟨c.1, _, stop_of_space c.2, rfl⟩
  | nil =>
    cases items with
    | nil => exact ⟨0, tail, by decide, rfl⟩
    | cons next items => exact absurd hblanks h.1

theorem Item.value_bounds (item : Item) :
    item.signed = true ∧ -2 ^ 63 ≤ item.value ∧ item.value < 2 ^ 63 ∨
      item.signed = false ∧ 0 ≤ item.value ∧ item.value < 2 ^ 64 := by
  cases hs : item.signed with
  | true =>
    obtain ⟨lo, hi⟩ := slotInt_bounds item.slot
    rw [intMin] at lo
    rw [intMax] at hi
    rw [Item.value, hs, if_pos rfl]
    exact .inl ⟨rfl, by omega, by omega⟩
  | false =>
    have hslot : slotUint item.slot < 2 ^ 32 := (item.slot.setWidth 32).isLt
    rw [Item.value, hs, if_neg Bool.false_ne_true]
    exact .inr ⟨rfl, by omega, by omega⟩

theorem Reads.behind_blanks {front s e : List UInt8} {base n : Nat} {negative : Bool}
    (hfront : ∀ c ∈ front, isSpaceByte c = true) (h : Reads s base negative n e) :
    Reads (front ++ s) base negative n e := by
  have hdrop : (front ++ s).dropWhile isSpaceByte = s.dropWhile isSpaceByte :=
    List.dropWhile_append_of_pos hfront
  simp only [Reads, subject, subjectTail, hdrop]
  exact h

theorem strtol_of_reads {s e : List UInt8} (h : Terminated s) {v : Int} (lo : -2 ^ 63 ≤ v)
    (hi : v < 2 ^ 63) (hreads : Reads s 10 (decide (v < 0)) v.natAbs e) (errno : Int) :
    strtol s 10 errno = some ⟨v, some e, errno⟩ := by
  obtain ⟨hneg, hmag, hend⟩ := hreads
  have heq := @strtolBody_eq (2 ^ 63 - 1) (2 ^ 63) (by decide) le_rfl _ h 10 (.inr (by decide))
    errno
  simp only [hneg, hmag, hend, decide_eq_true_eq] at heq
  by_cases hlt : v < 0
  · have hle : v.natAbs ≤ 2 ^ 63 := by omega
    have hval : -(v.natAbs : Int) = v := by omega
    simp only [hlt, if_true, hle, hval, not_lt.mpr hle, if_false] at heq
    exact heq
  · have hle : v.natAbs ≤ 2 ^ 63 - 1 := by omega
    have hval : (v.natAbs : Int) = v := by omega
    simp only [hlt, if_false, hle, if_true, hval, not_lt.mpr hle] at heq
    exact heq

theorem strtoul_of_reads {s e : List UInt8} (h : Terminated s) {base : Nat} (hb : ValidBase base)
    {v : Int} (lo : 0 ≤ v) (hi : v < 2 ^ 64)
    (hreads : Reads s base (decide (v < 0)) v.natAbs e) (errno : Int) :
    strtoul s base errno = some ⟨v, some e, errno⟩ := by
  obtain ⟨hneg, hmag, hend⟩ := hreads
  have heq := strtoulBody_eq (by decide : ulongMax < 2 ^ 64) h hb errno
  have hle : ¬ulongMax < v.natAbs := by
    rw [ulongMax]
    omega
  have hval : (v.natAbs : Int) = v := by omega
  simp only [hneg, hmag, hend, hle, if_false, decide_eq_true_eq, not_lt.mpr lo, hval] at heq
  exact heq

theorem isInt_conv (item : Item) : IsInt item.directive.conv.conv := by
  rcases item.reader with ⟨h | h, _⟩ | ⟨h | h | h | h, _⟩ <;> simp [h, IsInt, ConvChar.conv]

theorem reads_item (item : Item) (hshown : item.Shown) {c : UInt8} {u : List UInt8}
    (hc : Stop c) : ∃ k, Reads (item.rendering ++ c :: u) item.base (decide (item.value < 0))
      item.value.natAbs (List.replicate k (byte ' ') ++ c :: u) := by
  refine reads_renderInt (isInt_conv item) (fun hconv => ?_) ?_ hshown hc
  · have hsigned : item.signed = false := decide_eq_false hconv
    rw [Item.value, hsigned, if_neg Bool.false_ne_true]
    exact Int.natCast_nonneg _
  · rcases item.signed_or with ⟨hconv, _, hbase⟩ | ⟨h, _⟩
    · refine .inl (hbase.trans ?_)
      rcases hconv with hconv | hconv <;> rw [hconv] <;> rfl
    · exact h.readsBack

/-- One call reads one item, whatever white space it begins in. -/
theorem read_item (item : Item) (hshown : item.Shown) {front : List UInt8}
    (hfront : ∀ c ∈ front, isSpaceByte c = true) {c : UInt8} {u : List UInt8} (hc : Stop c)
    (hterm : Terminated (front ++ (item.rendering ++ c :: u))) (errno : Int) :
    ∃ k, readNumber item.signed item.base (front ++ (item.rendering ++ c :: u)) errno =
      some ⟨item.value, some (List.replicate k (byte ' ') ++ c :: u), errno⟩ := by
  obtain ⟨k, hreads⟩ := reads_item item hshown (u := u) hc
  have hreads := hreads.behind_blanks hfront
  refine ⟨k, ?_⟩
  rcases item.value_bounds with ⟨hsigned, lo, hi⟩ | ⟨hsigned, lo, hi⟩
  · have hbase : item.base = 10 := by
      rcases item.signed_or with ⟨_, _, hbase⟩ | ⟨_, hnot⟩
      · exact hbase
      · exact absurd (hsigned.symm.trans hnot) (by decide)
    rw [hbase] at hreads ⊢
    rw [readNumber, if_pos hsigned]
    exact strtol_of_reads hterm lo hi hreads errno
  · have hvalid : ValidBase item.base := by
      rcases item.signed_or with ⟨_, hyes, _⟩ | ⟨h, _⟩
      · exact absurd (hyes.symm.trans hsigned) (by decide)
      · exact h.valid
    rw [readNumber, hsigned, if_neg Bool.false_ne_true]
    exact strtoul_of_reads hterm hvalid lo hi hreads errno

theorem Separated.tail {item : Item} {items : List Item} (h : Separated (item :: items)) :
    Separated items := by
  cases items with
  | nil => trivial
  | cons next items => exact h.2

theorem read_items (items : List Item) (hshown : ∀ item ∈ items, item.Shown)
    (hsep : Separated items) {front : List UInt8} (hfront : ∀ c ∈ front, isSpaceByte c = true)
    (tail : List UInt8) (errno : Int) :
    ∃ e, readNumbers (items.map Item.readerOf)
        (front ++ (items.flatMap Item.text ++ 0 :: tail)) errno =
      some (items.map Item.value, e, errno) ∧ SpaceLeft e := by
  induction items generalizing front with
  | nil => exact ⟨_, rfl, front, tail, rfl, hfront⟩
  | cons item items ih =>
    obtain ⟨c, u, hc, hrest⟩ := exists_stop item items hsep tail
    have htext : (item :: items).flatMap Item.text ++ 0 :: tail = item.rendering ++ c :: u := by
      rw [List.flatMap_cons, Item.text, List.append_assoc, List.append_assoc, hrest]
    have hterm : Terminated (front ++ (item.rendering ++ c :: u)) := by
      rw [← htext]
      simp [Terminated]
    obtain ⟨k, hread⟩ := read_item item (hshown item List.mem_cons_self) hfront hc hterm errno
    have hblank : ∀ c ∈ List.replicate k (byte ' ') ++ item.blanks.map Subtype.val,
        isSpaceByte c = true := by
      intro c hc
      rcases List.mem_append.mp hc with hspace | hblank
      · rw [List.eq_of_mem_replicate hspace]
        decide
      · obtain ⟨b, _, rfl⟩ := List.mem_map.mp hblank
        exact b.2
    obtain ⟨e, hreads, hleft⟩ := ih (fun item' h => hshown item' (List.mem_cons_of_mem _ h))
      hsep.tail hblank
    refine ⟨e, ?_, hleft⟩
    rw [List.append_assoc, hrest] at hreads
    rw [htext, List.map_cons, readNumbers, Item.readerOf, hread, Option.bind_eq_bind,
      Option.bind_some, Option.bind_eq_bind, Option.bind_some, hreads]
    rfl

/-- `sprintf` prints any list of numbers, and the readers give back these numbers and no error,
with nothing but white space left over. -/
theorem sprintf_list_read_back (items : List Item) (hshown : ∀ item ∈ items, item.Shown)
    (hsep : Separated items) (args : List (BitVec 64)) (mem : Memory.Mem)
    (buffer rest : List UInt8) (errno : Int) (hsize : buffer.length ≤ sizeMax)
    (hroom : (items.flatMap Item.text).length < buffer.length) :
    ∃ r, vsprintf buffer (format items ++ 0 :: rest) (items.map Item.slot ++ args) mem errno =
        some r ∧ r.args = args ∧ r.mem = mem ∧ r.errno = errno ∧
      ∀ errno', ∃ e, readNumbers (items.map Item.readerOf) r.buffer errno' =
        some (items.map Item.value, e, errno') ∧ SpaceLeft e := by
  have hprint := vsnprintf_stop errno (run_items items args mem [])
    (by decide : sizeMax < 2 ^ 64) (hroom.trans_le hsize) hroom rest
  exact ⟨_, hprint, rfl, rfl, rfl, fun errno' =>
    read_items items hshown hsep (by simp : ∀ c ∈ [], isSpaceByte c = true) _ errno'⟩

/-- The directive `%-4o`. -/
def minusO : Directive where
  flags := [.minus]
  width := .number ⟨3, by decide⟩ []
  precision := .absent
  length := .none
  conv := .o
  fits := by decide

/-- `%+06d %#x\n%-4o` of -42, 42 and 8. -/
def threeNumbers : List Item :=
  [⟨plusZeroD, 0xFFFFFFD6, [⟨32, rfl⟩], 10, by decide, by decide⟩,
    ⟨numberX, 42, [⟨10, rfl⟩], 0, by decide, by decide⟩,
    ⟨minusO, 8, [], 8, by decide, by decide⟩]

theorem sprintf_list_read_back_three :
    ∃ r, vsprintf (List.replicate 32 7)
        [37, 43, 48, 54, 100, 32, 37, 35, 120, 10, 37, 45, 52, 111, 0] [0xFFFFFFD6, 42, 8]
        (fun _ => none) 0 = some r ∧ r.args = [] ∧ r.mem = (fun _ => none) ∧ r.errno = 0 ∧
      ∀ errno', ∃ e, readNumbers [(true, 10), (false, 0), (false, 8)] r.buffer errno' =
        some ([-42, 42, 8], e, errno') ∧ SpaceLeft e :=
  sprintf_list_read_back threeNumbers (by decide) (by decide) [] (fun _ => none)
    (List.replicate 32 7) [] 0 (by decide) (by decide)

end Lists

end NumberLists
