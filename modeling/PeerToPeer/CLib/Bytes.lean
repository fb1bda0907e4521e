import Mathlib.Data.List.Basic
import Mathlib.Tactic.Ring

namespace PeerToPeer.CLib

/-- How a call ends when it does not return: the process calls `exit`, or it
touches memory outside an object, after which C promises nothing. -/
inductive Fault where
  | exit (code : Int)
  | outOfBounds
  deriving DecidableEq, Repr

@[simp] theorem ok_bind {ε α β : Type} (a : α) (f : α → Except ε β) :
    (Except.ok a >>= f) = f a := rfl

@[simp] theorem error_bind {ε α β : Type} (e : ε) (f : α → Except ε β) :
    (Except.error e >>= f) = Except.error e := rfl

@[simp] theorem pure_eq_ok {ε α : Type} (a : α) : (pure a : Except ε α) = .ok a := rfl

theorem ok_pair_inj {ε α β : Type} {a c : α} {b d : β}
    (h : (Except.ok (a, b) : Except ε (α × β)) = .ok (c, d)) : a = c ∧ b = d := by
  simpa using h

theorem bind_eq_ok {ε α β : Type} {x : Except ε α} {f : α → Except ε β} {b : β} :
    (x >>= f) = .ok b ↔ ∃ a, x = .ok a ∧ f a = .ok b := by
  cases x with
  | error e => simp
  | ok a => simp

/-- A fixed-size block of bytes: a `char` array field, or the image of a struct. -/
abbrev Bytes (n : Nat) := Vector UInt8 n

namespace Bytes

def zero (n : Nat) : Bytes n := Vector.replicate n 0

/-- `m` bytes from offset `off`. -/
def read {n : Nat} (b : Bytes n) (off m : Nat) : Bytes m :=
  Vector.ofFn fun i => b[off + i.val]?.getD 0

/-- Overwrite from offset `off`, as `memcpy` into the block does. -/
def write {n : Nat} (b : Bytes n) (off : Nat) (src : List UInt8) : Bytes n :=
  Vector.ofFn fun i => if off ≤ i.val then src[i.val - off]?.getD b[i] else b[i]

theorem getElem_zero {n i : Nat} (h : i < n) : (zero n)[i] = 0 := by
  simp [zero]

theorem getElem_read {n : Nat} (b : Bytes n) (off m i : Nat) (h : i < m) :
    (b.read off m)[i] = b[off + i]?.getD 0 := by
  simp [read]

theorem getElem_write {n : Nat} (b : Bytes n) (off : Nat) (src : List UInt8) (i : Nat)
    (h : i < n) :
    (b.write off src)[i] = if off ≤ i then src[i - off]?.getD b[i] else b[i] := by
  simp [write]

/-- The region just written reads back as the source. -/
theorem read_write_self {n : Nat} (b : Bytes n) (off m : Nat) (src : List UInt8)
    (hm : src.length = m) (hf : off + m ≤ n) :
    ((b.write off src).read off m).toList = src := by
  apply List.ext_getElem
  · simp [hm]
  · intro i h1 h2
    have hi : off + i < n := by omega
    simp [getElem_read, getElem_write, hi, h2]

/-- A region behind or before the written one reads as it was. -/
theorem read_write_disjoint {n : Nat} (b : Bytes n) (off off' m : Nat) (src : List UInt8)
    (hd : off' + m ≤ off ∨ off + src.length ≤ off') :
    (b.write off src).read off' m = b.read off' m := by
  ext i hi
  by_cases hn : off' + i < n
  · rcases hd with hd | hd
    · have : ¬ off ≤ off' + i := by omega
      simp [getElem_read, getElem_write, hn, this]
    · have : src.length ≤ off' + i - off := by omega
      simp [getElem_read, getElem_write, hn, this]
  · simp [getElem_read, hn]

/-- A read inside a written prefix sees the source. -/
theorem read_write_inside {n : Nat} (b : Bytes n) (off off' m : Nat) (src : List UInt8)
    (hlo : off ≤ off') (hs : off' + m ≤ off + src.length) (hf : off + src.length ≤ n) :
    ((b.write off src).read off' m).toList = (src.drop (off' - off)).take m := by
  apply List.ext_getElem
  · simp; omega
  · intro i h1 h2
    have hi : i < m := by simpa using h1
    have hn : off' + i < n := by omega
    have ho : off ≤ off' + i := by omega
    have hl : off' + i - off < src.length := by omega
    have he : off' - off + i = off' + i - off := by omega
    simp [getElem_read, getElem_write, hn, ho, hl, he]

/-- The block a short source leaves in zeroed memory. -/
def padded (n : Nat) (src : List UInt8) : Bytes n := (zero n).write 0 src

theorem getElem_padded (n : Nat) (src : List UInt8) (i : Nat) (h : i < n) :
    (padded n src)[i] = src.getD i 0 := by
  simp [padded, getElem_write, getElem_zero, List.getD]

/-- A full block is its own padding. -/
theorem padded_toList {n : Nat} (b : Bytes n) : padded n b.toList = b := by
  ext i hi
  rw [getElem_padded, List.getD, Vector.getElem?_toList, Vector.getElem?_eq_getElem hi,
    Option.getD_some]

theorem read_congr {n n' : Nat} {b : Bytes n} {b' : Bytes n'} {off m : Nat}
    (h : ∀ i, off ≤ i → i < off + m → b[i]?.getD 0 = b'[i]?.getD 0) :
    b.read off m = b'.read off m := by
  ext i hi
  rw [getElem_read, getElem_read, h _ (by omega) (by omega)]

/-- A read inside a read region is a read of the block. -/
theorem read_read {n : Nat} (b : Bytes n) (off m off' m' : Nat) (h : off' + m' ≤ m) :
    (b.read off m).read off' m' = b.read (off + off') m' := by
  ext i hi
  have hlt : off' + i < m := by omega
  rw [getElem_read, getElem_read, Vector.getElem?_eq_getElem hlt, Option.getD_some, getElem_read,
    Nat.add_assoc]

end Bytes

/-- Value of a little-endian byte string. -/
def decodeLE : List UInt8 → Nat
  | [] => 0
  | b :: bs => b.toNat + 256 * decodeLE bs

/-- The `w` bytes of `n`, least significant first. -/
def encodeLE : Nat → Nat → List UInt8
  | 0, _ => []
  | w + 1, n => UInt8.ofNat n :: encodeLE w (n / 256)

@[simp] theorem encodeLE_length (w n : Nat) : (encodeLE w n).length = w := by
  induction w generalizing n with
  | zero => rfl
  | succ w ih => simp [encodeLE, ih]

theorem decodeLE_encodeLE (w n : Nat) : decodeLE (encodeLE w n) = n % 256 ^ w := by
  induction w generalizing n with
  | zero => simp [encodeLE, decodeLE, Nat.mod_one]
  | succ w ih =>
    rw [encodeLE, decodeLE, ih, pow_succ', Nat.mod_mul]
    simp

theorem encodeLE_decodeLE (l : List UInt8) : encodeLE l.length (decodeLE l) = l := by
  induction l with
  | nil => rfl
  | cons b bs ih =>
    have hb : b.toNat < 256 := b.toNat_lt
    simp only [List.length_cons, encodeLE, decodeLE]
    rw [Nat.add_mul_div_left _ _ (by decide), Nat.div_eq_of_lt hb, Nat.zero_add, ih]
    congr 1
    apply UInt8.toNat_inj.mp
    simp

/-- An `int` as the `uint32_t` with the same bits. -/
theorem toInt_emod (x : Int32) : x.toInt % 4294967296 = (x.toUInt32.toNat : Int) := by
  have hx : x.toInt = (x.toUInt32.toNat : Int).bmod (2 ^ 32) := BitVec.toInt_eq_toNat_bmod _
  have hmod : (x.toUInt32.toNat : Int).bmod (2 ^ 32) % (2 ^ 32 : Nat) =
      (x.toUInt32.toNat : Int) % (2 ^ 32 : Nat) := Int.bmod_emod
  have hlt := x.toUInt32.toNat_lt
  omega

/-- `htons`, its own inverse on a little-endian host; `ntohs` is the same function. -/
def htons (x : UInt16) : UInt16 := UInt16.ofNat (x.toNat % 256 * 256 + x.toNat / 256)

def ntohs (x : UInt16) : UInt16 := htons x

@[simp] theorem ntohs_htons (x : UInt16) : ntohs (htons x) = x := by
  apply UInt16.toNat_inj.mp
  have h := x.toNat_lt
  have hn : x.toNat % 256 * 256 + x.toNat / 256 < 2 ^ 16 := by omega
  have hlo : (x.toNat % 256 * 256 + x.toNat / 256) % 256 = x.toNat / 256 := by omega
  have hhi : (x.toNat % 256 * 256 + x.toNat / 256) / 256 = x.toNat % 256 := by omega
  rw [ntohs, htons, htons, UInt16.toNat_ofNat', UInt16.toNat_ofNat', Nat.mod_eq_of_lt hn,
    hlo, hhi, Nat.div_add_mod']
  exact Nat.mod_eq_of_lt h

/-- `htonl`: the four bytes in reverse order. -/
def htonl (x : UInt32) : UInt32 :=
  UInt32.ofNat (decodeLE (encodeLE 4 x.toNat).reverse)

def ntohl (x : UInt32) : UInt32 := htonl x

/-- A 32-bit field handed to `htons` or `ntohs`: the argument is cut to 16 bits and
the result widened again. -/
def swapLow (x : UInt32) : UInt32 := (htons x.toUInt16).toUInt32

/-- On the four bytes of a field, `swapLow` exchanges the low two and clears the others. -/
theorem swapLow_bytes (b₀ b₁ b₂ b₃ : UInt8) :
    encodeLE 4 (swapLow (UInt32.ofNat (decodeLE [b₀, b₁, b₂, b₃]))).toNat = [b₁, b₀, 0, 0] := by
  have h₀ := b₀.toNat_lt
  have h₁ := b₁.toNat_lt
  have hlow : decodeLE [b₀, b₁, b₂, b₃] % 2 ^ 16 = b₀.toNat + 256 * b₁.toNat := by
    simp only [decodeLE]
    omega
  have hval : (swapLow (UInt32.ofNat (decodeLE [b₀, b₁, b₂, b₃]))).toNat =
      decodeLE [b₁, b₀, 0, 0] := by
    have h16 : (UInt32.ofNat (decodeLE [b₀, b₁, b₂, b₃])).toUInt16.toNat =
        b₀.toNat + 256 * b₁.toNat := by
      rw [UInt32.toNat_toUInt16, UInt32.toNat_ofNat', ← hlow]
      omega
    have hlo : (b₀.toNat + 256 * b₁.toNat) % 256 = b₀.toNat := by omega
    have hhi : (b₀.toNat + 256 * b₁.toNat) / 256 = b₁.toNat := by omega
    rw [swapLow, UInt16.toNat_toUInt32, htons, h16, UInt16.toNat_ofNat', hlo, hhi]
    simp only [decodeLE, UInt8.toNat_zero]
    omega
  rw [hval]
  exact encodeLE_decodeLE [b₁, b₀, 0, 0]

namespace Bytes

/-- The little-endian 32-bit field at `off`. -/
def u32 {n : Nat} (b : Bytes n) (off : Nat) : UInt32 :=
  UInt32.ofNat (decodeLE (b.read off 4).toList)

def setU32 {n : Nat} (b : Bytes n) (off : Nat) (x : UInt32) : Bytes n :=
  b.write off (encodeLE 4 x.toNat)

/-- A field is read off its four bytes. -/
theorem u32_of_bytes {n : Nat} {b : Bytes n} {off : Nat} {x : UInt32}
    (h : (b.read off 4).toList = encodeLE 4 x.toNat) : b.u32 off = x := by
  have hx := x.toNat_lt
  apply UInt32.toNat_inj.mp
  rw [u32, h, decodeLE_encodeLE, UInt32.toNat_ofNat']
  omega

theorem u32_setU32 {n : Nat} (b : Bytes n) (off : Nat) (x : UInt32) (h : off + 4 ≤ n) :
    (b.setU32 off x).u32 off = x :=
  u32_of_bytes (read_write_self _ _ _ _ (encodeLE_length _ _) h)

theorem u32_congr {n n' : Nat} {b : Bytes n} {b' : Bytes n'} {off : Nat}
    (h : ∀ i, off ≤ i → i < off + 4 → b[i]?.getD 0 = b'[i]?.getD 0) : b.u32 off = b'.u32 off := by
  rw [u32, u32, read_congr h]

theorem u32_eq {n : Nat} (b : Bytes n) (off : Nat) :
    b.u32 off = UInt32.ofNat (decodeLE [b[off]?.getD 0, b[off + 1]?.getD 0,
      b[off + 2]?.getD 0, b[off + 3]?.getD 0]) := by
  rw [u32]
  congr 2

theorem u32_write_disjoint {n : Nat} (b : Bytes n) (off off' : Nat) (src : List UInt8)
    (hd : off' + 4 ≤ off ∨ off + src.length ≤ off') :
    (b.write off src).u32 off' = b.u32 off' := by
  rw [u32, read_write_disjoint _ _ _ _ _ hd, u32]

theorem u32_setU32_disjoint {n : Nat} (b : Bytes n) (off off' : Nat) (x : UInt32)
    (hd : off' + 4 ≤ off ∨ off + 4 ≤ off') : (b.setU32 off x).u32 off' = b.u32 off' :=
  u32_write_disjoint b off off' _ (by simpa using hd)

end Bytes

end PeerToPeer.CLib
