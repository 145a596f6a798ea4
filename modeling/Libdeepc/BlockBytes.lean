import Libdeepc.HeapBlocks
import Libdeepc.MemoryMove

/-!
# The bytes of a block

A block is the 8 bytes of its header and as many bytes of data behind them as the
header says. What `storeSize` and `memcpy` write, and which bytes they leave.
-/

namespace BlockBytes

open BreakHeap HeapBlocks
open ByteMemory (add_ofNat_add add_ofNat_inj add_ofNat_zero add_one_add_ofNat toNat_offset)

variable {mem mem' : UInt64 → UInt8}

section Header

/-- What the header of the block at `p` says. -/
def recorded (mem : UInt64 → UInt8) (p : UInt64) : UInt64 := loadSize mem (getMeta p)

theorem low_byte (x : UInt64) : (x >>> 8) <<< 8 ||| x.toUInt8.toUInt64 = x := by
  apply UInt64.toNat_inj.mp
  have hx := x.toNat_lt
  have hshift : ((x >>> 8) <<< 8).toNat = (x.toNat / 2 ^ 8) <<< 8 := by
    rw [UInt64.toNat_shiftLeft, UInt64.toNat_shiftRight]
    change ((x.toNat >>> 8) <<< 8) % 2 ^ 64 = _
    rw [Nat.shiftRight_eq_div_pow, Nat.shiftLeft_eq]
    omega
  have hlow : x.toUInt8.toUInt64.toNat = x.toNat % 2 ^ 8 := by simp
  rw [UInt64.toNat_or, hshift, hlow, ← Nat.shiftLeft_add_eq_or_of_lt (Nat.mod_lt _ (by decide)),
    Nat.shiftLeft_eq]
  omega

theorem shiftRight_succ (x : UInt64) {i : Nat} (hi : i < 7) :
    x >>> (8 * .ofNat (i + 1)) = (x >>> (8 * .ofNat i)) >>> 8 := by
  have hshift : ∀ j : Nat, j < 8 → (8 * UInt64.ofNat j).toNat % 64 = 8 * j := by
    intro j hj
    have h8 : (8 : UInt64).toNat = 8 := rfl
    rw [UInt64.toNat_mul, UInt64.toNat_ofNat', h8]
    omega
  apply UInt64.toNat_inj.mp
  rw [UInt64.toNat_shiftRight, UInt64.toNat_shiftRight, UInt64.toNat_shiftRight,
    hshift _ (by omega), hshift _ (by omega)]
  exact Nat.shiftRight_add x.toNat (8 * i) 8

/-- The bytes of a word from the `k`th on, put together again. -/
theorem foldr_bytes (size : UInt64) {n k : Nat} (h : k + n = 7) :
    (List.range' k (n + 1)).foldr
        (fun i (acc : UInt64) => acc <<< 8 ||| (size >>> (8 * .ofNat i)).toUInt8.toUInt64) 0 =
      size >>> (8 * .ofNat k) := by
  induction n generalizing k with
  | zero =>
    obtain rfl : k = 7 := by omega
    have htop : (size >>> (8 * .ofNat 7)) >>> 8 = 0 := by
      apply UInt64.toNat_inj.mp
      have hsize := size.toNat_lt
      rw [UInt64.toNat_shiftRight, UInt64.toNat_shiftRight]
      change (size.toNat >>> 56) >>> 8 = 0
      rw [← Nat.shiftRight_add, Nat.shiftRight_eq_div_pow]
      omega
    have hbyte := low_byte (size >>> (8 * .ofNat 7))
    rw [htop] at hbyte
    exact hbyte
  | succ n ih =>
    rw [List.range'_succ, List.foldr_cons, ih (by omega), shiftRight_succ size (by omega)]
    exact low_byte _

theorem loadSize_storeSize (mem : UInt64 → UInt8) (header size : UInt64) :
    loadSize (storeSize mem header size) header = size := by
  have hbytes : ∀ i ∈ List.range 8, ∀ acc : UInt64,
      acc <<< 8 ||| (storeSize mem header size (header + i.toUInt64)).toUInt64 =
        acc <<< 8 ||| (size >>> (8 * .ofNat i)).toUInt8.toUInt64 := by
    intro i hi acc
    have hlt := List.mem_range.mp hi
    have hoffset : header + i.toUInt64 - header = .ofNat i := by
      rw [UInt64.add_comm, UInt64.add_sub_cancel]
    have hin : UInt64.ofNat i < metadataSize := by
      rw [UInt64.lt_iff_toNat_lt, UInt64.toNat_ofNat', Nat.mod_eq_of_lt (by omega)]
      exact hlt
    rw [storeSize, hoffset, if_pos hin]
  rw [loadSize, List.foldr_ext _ _ _ hbytes, List.range_eq_range', foldr_bytes size rfl]
  exact UInt64.shiftRight_zero

theorem loadSize_congr {header : UInt64}
    (h : ∀ i : Nat, i < 8 → mem' (header + .ofNat i) = mem (header + .ofNat i)) :
    loadSize mem' header = loadSize mem header := by
  refine List.foldr_ext _ _ _ fun i hi acc => ?_
  change acc <<< 8 ||| (mem' (header + .ofNat i)).toUInt64 = _
  rw [h i (List.mem_range.mp hi)]

end Header

section Copy

theorem memcpy_outside {dest src a : UInt64} {count : Nat}
    (h : ∀ i, i < count → a ≠ dest + .ofNat i) : memcpy mem dest src count a = mem a := by
  induction count generalizing mem dest src with
  | zero => rfl
  | succ count ih =>
    rw [memcpy, ih fun i hi => ?_, setByte, if_neg]
    · have := h 0 (Nat.succ_pos _)
      rwa [add_ofNat_zero] at this
    · rw [add_one_add_ofNat]
      exact h (i + 1) (Nat.succ_lt_succ hi)

theorem copyUp_total {n fuel : Nat} (hn : n < fuel) (hspace : n < 2 ^ 64) (dest src : UInt64) :
    StringFunctions.copyUp (dest + .ofNat n) fuel (some ∘ mem) dest src =
      some (some ∘ memcpy mem dest src n) := by
  induction n generalizing mem dest src fuel with
  | zero =>
    obtain ⟨fuel, rfl⟩ := Nat.exists_eq_succ_of_ne_zero (by omega : fuel ≠ 0)
    rw [StringFunctions.copyUp, add_ofNat_zero, if_pos rfl, memcpy]
  | succ n ih =>
    obtain ⟨fuel, rfl⟩ := Nat.exists_eq_succ_of_ne_zero (by omega : fuel ≠ 0)
    have hmore : dest ≠ dest + .ofNat (n + 1) := by
      intro heq
      have hzero : dest + .ofNat 0 = dest + .ofNat (n + 1) := by rwa [add_ofNat_zero]
      exact absurd (add_ofNat_inj (by omega) hspace hzero) (by omega)
    have hput : ByteMemory.put (some ∘ mem) dest (mem src) =
        some (some ∘ setByte mem dest (mem src)) := by
      apply congrArg some
      funext a
      change Function.update (some ∘ mem) dest (some (mem src)) a = _
      rw [Function.update_apply, Function.comp_apply, Function.comp_apply, setByte, apply_ite some]
    rw [StringFunctions.copyUp, if_neg hmore, Function.comp_apply, Option.bind_some, hput,
      Option.bind_some, ← add_one_add_ofNat, ih (by omega) (by omega), memcpy]

/-- The `memcpy` here is the one of string.c, on memory that has a byte at every address. -/
theorem memcpy_total (mem : UInt64 → UInt8) (dest src count : UInt64) :
    StringFunctions.memcpy (some ∘ mem) dest src count =
      some (dest, some ∘ memcpy mem dest src count.toNat) := by
  have hrun : StringFunctions.copyUp (dest + .ofNat count.toNat) StringFunctions.rounds
      (some ∘ mem) dest src = some (some ∘ memcpy mem dest src count.toNat) :=
    copyUp_total count.toNat_lt count.toNat_lt dest src
  rw [UInt64.ofNat_toNat] at hrun
  rw [StringFunctions.memcpy, hrun]
  rfl

/-- The bytes that stand at `p`. -/
def bytesFrom (mem : UInt64 → UInt8) (p : UInt64) (n : Nat) : List UInt8 :=
  (List.range n).map fun i => mem (p + .ofNat i)

theorem length_bytesFrom (mem : UInt64 → UInt8) (p : UInt64) (n : Nat) :
    (bytesFrom mem p n).length = n := by
  rw [bytesFrom, List.length_map, List.length_range]

theorem holds_bytesFrom (p : UInt64) (n : Nat) :
    ByteMemory.Holds (some ∘ mem) p (bytesFrom mem p n) := by
  intro i _
  simp only [bytesFrom, List.getElem_map, List.getElem_range]
  rfl

/-- A copy to other places takes over all bytes, however far both go round. -/
theorem memcpy_copied {dest src : UInt64} {count : Nat} (hcount : count < 2 ^ 64)
    (hapart : ∀ i j, i < count → j < count → src + .ofNat i ≠ dest + .ofNat j) {i : Nat}
    (hi : i < count) : memcpy mem dest src count (dest + .ofNat i) = mem (src + .ofNat i) := by
  have hlen := length_bytesFrom mem src count
  have hword : (UInt64.ofNat count).toNat = count := by
    rw [UInt64.toNat_ofNat', Nat.mod_eq_of_lt hcount]
  have hahead : MemoryMove.AheadOf src dest (bytesFrom mem src count).length := by
    intro i j hj hi
    rw [hlen] at hi
    exact hapart i j hi (by omega)
  have hcopy := MemoryMove.memcpy_eq (hlen.trans hword.symm) (holds_bytesFrom src count)
    (fun _ _ => rfl) hahead
  rw [memcpy_total, hword] at hcopy
  have hsame := (Prod.mk.inj (Option.some.inj hcopy)).2
  have hholds := ByteMemory.holds_patch (some ∘ mem) dest (hlen.trans_le hcount.le)
  rw [← hsame] at hholds
  have hat := hholds i (hlen.symm ▸ hi)
  rw [← holds_bytesFrom src count i (hlen.symm ▸ hi)] at hat
  exact Option.some.inj hat

end Copy

section Blocks

/-- Header or data of a block of `size` bytes at `p`. Addresses go round. -/
def InBlock (size p a : UInt64) : Prop :=
  (a - getMeta p).toNat < metadataSize.toNat + size.toNat

/-- No address belongs to both blocks. -/
def Apart (size p size' p' : UInt64) : Prop :=
  ∀ a, InBlock size p a → ¬InBlock size' p' a

variable {size size' p p' a : UInt64} {i : Nat}

theorem Apart.symm (h : Apart size p size' p') : Apart size' p' size p :=
  fun a ha ha' => h a ha' ha

theorem inBlock_header (hi : i < 8) : InBlock size p (getMeta p + .ofNat i) := by
  have h8 : metadataSize.toNat = 8 := rfl
  rw [InBlock, toNat_offset _ (by omega)]
  omega

/-- The data begins behind the header. -/
theorem data_eq (p : UInt64) (i : Nat) : p + .ofNat i = getMeta p + .ofNat (8 + i) := by
  rw [← add_ofNat_add, getMeta]
  exact congrArg (· + UInt64.ofNat i) (UInt64.sub_add_cancel p metadataSize).symm

theorem inBlock_data (hi : i < size.toNat) : InBlock size p (p + .ofNat i) := by
  have h8 : metadataSize.toNat = 8 := rfl
  rw [InBlock, data_eq, UInt64.add_comm, UInt64.add_sub_cancel, UInt64.toNat_ofNat']
  omega

theorem inBlock_self : InBlock size p (getMeta p) := by
  have h : InBlock size p (getMeta p + .ofNat 0) := inBlock_header (by omega)
  rwa [add_ofNat_zero] at h

/-- Two blocks do not fit behind each other where one of them goes all the way round. -/
theorem Apart.size_lt (h : Apart size p size' p') :
    metadataSize.toNat + size.toNat < 2 ^ 64 := by
  by_contra hlarge
  apply h.symm _ inBlock_self
  have hlt := (getMeta p' - getMeta p).toNat_lt
  rw [InBlock]
  omega

/-- Blocks one behind the other, below the end of the address space. -/
theorem apart_of_le (hle : (getMeta p).toNat + metadataSize.toNat + size.toNat ≤ (getMeta p').toNat)
    (hend : (getMeta p').toNat + metadataSize.toNat + size'.toNat ≤ 2 ^ 64) :
    Apart size p size' p' := by
  intro a ha ha'
  rw [InBlock, UInt64.toNat_sub] at ha ha'
  have h8 : metadataSize.toNat = 8 := rfl
  have hlt := a.toNat_lt
  have hp := (getMeta p).toNat_lt
  have hp' := (getMeta p').toNat_lt
  omega

theorem storeSize_outside (h : ¬InBlock size p a) (n : UInt64) :
    storeSize mem (getMeta p) n a = mem a := by
  apply if_neg
  intro hlt
  apply h
  rw [InBlock]
  have := UInt64.lt_iff_toNat_lt.mp hlt
  omega

theorem storeSize_data (mem : UInt64 → UInt8) (p n : UInt64)
    (hi : metadataSize.toNat + i < 2 ^ 64) :
    storeSize mem (getMeta p) n (p + .ofNat i) = mem (p + .ofNat i) := by
  apply if_neg
  intro hlt
  have h8 : metadataSize.toNat = 8 := rfl
  rw [data_eq, UInt64.lt_iff_toNat_lt, toNat_offset _ (by omega)] at hlt
  omega

/-- Data that does not go round to its own header. -/
theorem data_ne_header (hsize : metadataSize.toNat + i < 2 ^ 64) {j : Nat} (hj : j < 8) :
    p + .ofNat i ≠ getMeta p + .ofNat j := by
  intro heq
  have h8 : metadataSize.toNat = 8 := rfl
  rw [data_eq] at heq
  have := add_ofNat_inj (by omega) (by omega) heq
  omega

/-- The bytes of a block, the header included, are the same in both memories. -/
def SameBlock (mem mem' : UInt64 → UInt8) (size p : UInt64) : Prop :=
  ∀ a, InBlock size p a → mem' a = mem a

theorem SameBlock.recorded_eq (h : SameBlock mem mem' size p) :
    recorded mem' p = recorded mem p :=
  loadSize_congr fun _ hi => h _ (inBlock_header hi)

theorem SameBlock.data (h : SameBlock mem mem' size p) (hi : i < size.toNat) :
    mem' (p + .ofNat i) = mem (p + .ofNat i) :=
  h _ (inBlock_data hi)

theorem sameBlock_storeSize (h : Apart size p size' p') (n : UInt64) :
    SameBlock mem (storeSize mem (getMeta p) n) size' p' := fun a ha =>
  storeSize_outside (fun hin => h a hin ha) n

end Blocks

end BlockBytes
