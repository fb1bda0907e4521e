import PeerToPeer.CLib.Bytes
import Mathlib.Data.List.TakeWhile

namespace PeerToPeer.CLib

/-- A C string: the characters before the terminating NUL. -/
@[ext] structure CString where
  chars : List UInt8
  noNul : 0 ∉ chars
  deriving DecidableEq

/-- The array object that holds the string, terminator included. -/
def CString.mem (s : CString) : List UInt8 := s.chars ++ [0]

/-- Characters a scan from the start of an object reads before it meets a NUL. -/
def chars (mem : List UInt8) : List UInt8 := mem.takeWhile (· ≠ 0)

/-- The scan meets a NUL before it leaves the object. -/
def Terminated (mem : List UInt8) : Prop := 0 ∈ mem

instance (mem : List UInt8) : Decidable (Terminated mem) :=
  inferInstanceAs (Decidable (0 ∈ mem))

@[simp] theorem chars_cons (b : UInt8) (bs : List UInt8) :
    chars (b :: bs) = if b = 0 then [] else b :: chars bs := by
  by_cases h : b = 0 <;> simp [chars, h]

@[simp] theorem chars_nil : chars [] = [] := rfl

theorem zero_notMem_chars (mem : List UInt8) : 0 ∉ chars mem := by
  induction mem with
  | nil => simp
  | cons b bs ih =>
    by_cases hb : b = 0
    · simp [hb]
    · simpa [hb, Ne.symm hb] using ih

theorem chars_append_left {s t : List UInt8} (h : 0 ∉ s) : chars (s ++ t) = s ++ chars t := by
  apply List.takeWhile_append_of_pos
  intro x hx
  have h0 : x ≠ 0 := by
    rintro rfl
    exact h hx
  simpa using h0

theorem terminated_append_left {s t : List UInt8} (h : 0 ∉ s) :
    Terminated (s ++ t) ↔ Terminated t := by
  simp [Terminated, h]

theorem chars_append {mem : List UInt8} (h : Terminated mem) (rest : List UInt8) :
    chars (mem ++ rest) = chars mem := by
  induction mem with
  | nil => simp [Terminated] at h
  | cons b bs ih =>
    rw [List.cons_append, chars_cons, chars_cons]
    split_ifs with hb
    · rfl
    · rw [ih (by simpa [Terminated, Ne.symm hb] using h)]

theorem chars_append_zero (s : List UInt8) (hs : 0 ∉ s) (t : List UInt8) :
    chars (s ++ 0 :: t) = s := by
  rw [chars_append_left hs, chars_cons, if_pos rfl, List.append_nil]

@[simp] theorem CString.chars_mem (s : CString) : CLib.chars s.mem = s.chars :=
  chars_append_zero s.chars s.noNul []

@[simp] theorem CString.terminated_mem (s : CString) : Terminated s.mem := by
  simp [Terminated, CString.mem]

/-- A literal of the source, in ASCII. -/
def CString.lit (s : String) : CString :=
  ⟨CLib.chars (s.toList.map fun x => UInt8.ofNat x.toNat), zero_notMem_chars _⟩

theorem chars_of_not_terminated {mem : List UInt8} (h : ¬ Terminated mem) : chars mem = mem := by
  rw [chars, List.takeWhile_eq_self_iff]
  intro b hb
  have h0 : b ≠ 0 := by
    rintro rfl
    exact h hb
  simpa using h0

theorem chars_length_lt (mem : List UInt8) (h : Terminated mem) :
    (chars mem).length < mem.length := by
  induction mem with
  | nil => simp [Terminated] at h
  | cons b bs ih =>
    by_cases hb : b = 0
    · simp [hb]
    · have ht : Terminated bs := by
        simpa [Terminated, Ne.symm hb] using h
      simpa [hb] using ih ht

/-- `strlen`: the scan has to meet a NUL inside the object. -/
def strlen (mem : List UInt8) : Except Fault Nat :=
  if Terminated mem then .ok (chars mem).length else .error .outOfBounds

/-- `strcmp`: a fault when the comparison runs off the end of an object. -/
def strcmp : List UInt8 → List UInt8 → Except Fault Int
  | a :: as, b :: bs =>
      if a = b then if a = 0 then .ok 0 else strcmp as bs
      else .ok ((a.toNat : Int) - b.toNat)
  | _, _ => .error .outOfBounds

theorem strcmp_terminated (a b : List UInt8) (ha : Terminated a) (hb : Terminated b) :
    ∃ c, strcmp a b = .ok c := by
  induction a generalizing b with
  | nil => simp [Terminated] at ha
  | cons x xs ih =>
    cases b with
    | nil => simp [Terminated] at hb
    | cons y ys =>
      rw [strcmp]
      split_ifs with hxy hx
      · exact ⟨_, rfl⟩
      · subst hxy
        exact ih ys (by simpa [Terminated, Ne.symm hx] using ha)
          (by simpa [Terminated, Ne.symm hx] using hb)
      · exact ⟨_, rfl⟩

/-- A comparison that returns zero has seen the same string twice. -/
theorem strcmp_eq_zero {a b : List UInt8} {c : Int} (h : strcmp a b = .ok c) :
    c = 0 ↔ chars a = chars b := by
  induction a generalizing b with
  | nil => simp [strcmp] at h
  | cons x xs ih =>
    cases b with
    | nil => simp [strcmp] at h
    | cons y ys =>
      rw [strcmp] at h
      split_ifs at h with hxy hx
      · have hc : c = 0 := by simpa using h.symm
        subst hxy
        simp [hc, hx]
      · subst hxy
        simp [hx, ih h]
      · have hc : c = (x.toNat : Int) - y.toNat := by simpa using h.symm
        have hne : x.toNat ≠ y.toNat := fun e => hxy (UInt8.toNat_inj.mp e)
        have h0 : c ≠ 0 := by omega
        by_cases hx : x = 0 <;> by_cases hy : y = 0 <;> simp_all

/-- Compared with the empty string, nothing is smaller. -/
theorem strcmp_empty_nonneg {a : List UInt8} {c : Int} (h : strcmp a [0] = .ok c) : 0 ≤ c := by
  cases a with
  | nil => simp [strcmp] at h
  | cons x xs =>
    by_cases hx : x = 0
    · have hc : c = 0 := by simpa [strcmp, hx] using h.symm
      omega
    · have hc : c = (x.toNat : Int) := by simpa [strcmp, hx] using h.symm
      omega

namespace Bytes

/-- The field as an array object. -/
abbrev mem {n : Nat} (b : Bytes n) : List UInt8 := b.toList

/-- The string a `char` field holds. -/
def str {n : Nat} (b : Bytes n) : List UInt8 := chars b.mem

/-- A zero-initialised field after `strcpy` of `b` into it. -/
def norm {n : Nat} (b : Bytes n) : Bytes n := (zero n).write 0 (b.str ++ [0])

/-- `strcpy` between fields of one size, into a zero-initialised destination. -/
def strcpy {n : Nat} (src : Bytes n) : Except Fault (Bytes n) :=
  if Terminated src.mem then .ok src.norm else .error .outOfBounds

/-- `strcpy` into a field that need not be zero: what lies behind the copied NUL stays. -/
def strcpyOver {n : Nat} (dst src : Bytes n) : Except Fault (Bytes n) :=
  if Terminated src.mem then .ok (dst.write 0 (src.str ++ [0])) else .error .outOfBounds

/-- `strcpy` of any string into a field. -/
def strcpyFrom {n : Nat} (dst : Bytes n) (src : CString) : Except Fault (Bytes n) :=
  if src.chars.length < n then .ok (dst.write 0 src.mem) else .error .outOfBounds

theorem write_start {n : Nat} (b : Bytes n) (src : List UInt8) (h : src.length ≤ n) :
    (b.write 0 src).mem = src ++ b.mem.drop src.length := by
  apply List.ext_getElem
  · simp
    omega
  · intro i hi _
    rw [Vector.length_toList] at hi
    by_cases hs : i < src.length
    · simp [getElem_write, hs]
    · have hle : src.length + (i - src.length) = i := by omega
      simp [getElem_write, hs, List.getElem_append, hle]

theorem strcpyFrom_ok {n : Nat} (dst : Bytes n) {src : CString} (h : src.chars.length < n) :
    ∃ b, dst.strcpyFrom src = .ok b ∧ Terminated b.mem ∧ b.str = src.chars := by
  have hlen : src.mem.length ≤ n := by
    rw [CString.mem, List.length_append]
    exact h
  have hmem := write_start dst src.mem hlen
  refine ⟨_, if_pos h, ?_, ?_⟩
  · rw [hmem]
    exact List.mem_append_left _ src.terminated_mem
  · rw [str, hmem, CString.mem, List.append_assoc]
    exact chars_append_zero src.chars src.noNul _

theorem strcpy_ok {n : Nat} {src dst : Bytes n} (h : strcpy src = .ok dst) :
    Terminated src.mem ∧ dst = src.norm := by
  unfold strcpy at h
  split_ifs at h with ht
  exact ⟨ht, by simpa using h.symm⟩

theorem strcpy_of_terminated {n : Nat} {src : Bytes n} (h : Terminated src.mem) :
    strcpy src = .ok src.norm := if_pos h

theorem str_length_lt {n : Nat} {b : Bytes n} (h : Terminated b.mem) : b.str.length < n := by
  have hl := chars_length_lt b.mem h
  rwa [Vector.length_toList] at hl

theorem norm_mem {n : Nat} {b : Bytes n} (h : Terminated b.mem) :
    b.norm.mem = b.str ++ 0 :: List.replicate (n - b.str.length - 1) 0 := by
  have hl := str_length_lt h
  apply List.ext_getElem
  · simp; omega
  · intro i h1 h2
    have hi : i < n := by simpa using h1
    by_cases hc : i < b.str.length
    · simp [norm, getElem_write, hc, List.getElem?_append]
    · by_cases hz : i = b.str.length
      · simp [norm, getElem_write, hz]
      · obtain ⟨k, hk⟩ : ∃ k, i - b.str.length = k + 1 := ⟨i - b.str.length - 1, by omega⟩
        simp [norm, getElem_write, getElem_zero, hc, List.getElem_append, List.getElem?_append,
          hk]

theorem norm_of_not_terminated {n : Nat} {b : Bytes n} (h : ¬ Terminated b.mem) :
    b.norm = b := by
  have hstr : b.str = b.mem := chars_of_not_terminated h
  apply Vector.ext
  intro i hi
  have hlen : i < b.mem.length := by simpa using hi
  rw [norm, getElem_write, hstr, if_pos (Nat.zero_le i), Nat.sub_zero,
    List.getElem?_append_left hlen]
  simp [hi]

@[simp] theorem str_norm {n : Nat} (b : Bytes n) : b.norm.str = b.str := by
  by_cases h : Terminated b.mem
  · rw [str, norm_mem h]
    exact chars_append_zero _ (zero_notMem_chars _) _
  · rw [norm_of_not_terminated h]

theorem terminated_norm {n : Nat} {b : Bytes n} (h : Terminated b.mem) :
    Terminated b.norm.mem := by
  rw [norm_mem h]
  simp [Terminated]

theorem norm_norm {n : Nat} (b : Bytes n) : b.norm.norm = b.norm := by
  rw [norm, str_norm, ← norm]

end Bytes

end PeerToPeer.CLib
