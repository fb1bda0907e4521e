import PeerToPeer.CLib.Bytes

namespace PeerToPeer.CLib

/-- One past the largest `size_t`. -/
abbrev sizeMod : Nat := 2 ^ 64

/-- No allocator grants a larger block (`PTRDIFF_MAX`). -/
abbrev ptrdiffMax : Nat := 2 ^ 63 - 1

/-- A growable array of elements of `size` bytes. `block` holds the slots written so far;
the slots from there to `cap` are allocated and indeterminate. -/
@[ext] structure GrowArray (α : Type) (size : Nat) where
  cap : Nat
  len : Nat
  block : List α
  len_le : len ≤ block.length
  block_le : block.length ≤ cap
  cap_pos : 0 < cap
  cap_bytes : cap * size ≤ ptrdiffMax

namespace GrowArray

variable {α : Type} {size : Nat}

def new (cap : Nat) (hp : 0 < cap) (hb : cap * size ≤ ptrdiffMax) : GrowArray α size :=
  ⟨cap, 0, [], Nat.le_refl 0, Nat.zero_le cap, hp, hb⟩

/-- The elements below `len`. -/
def live (a : GrowArray α size) : List α := a.block.take a.len

@[simp] theorem live_length (a : GrowArray α size) : a.live.length = a.len := by
  simp [live, a.len_le]

theorem len_le_cap (a : GrowArray α size) : a.len ≤ a.cap := a.len_le.trans a.block_le

@[simp] theorem live_new (cap : Nat) (hp : 0 < cap) (hb : cap * size ≤ ptrdiffMax) :
    (new cap hp hb : GrowArray α size).live = [] := rfl

/-- The byte count passed to `realloc`: `(cap * size) * 2` in `size_t`. -/
def resizeBytes (a : GrowArray α size) : Nat := a.cap * size % sizeMod * 2 % sizeMod

theorem resizeBytes_eq (a : GrowArray α size) : a.resizeBytes = a.cap * size * 2 := by
  have h := a.cap_bytes
  simp only [resizeBytes, sizeMod, ptrdiffMax] at *
  omega

theorem doubled_cap [NeZero size] (a : GrowArray α size) : a.cap * 2 % sizeMod = a.cap * 2 := by
  have h := a.cap_bytes
  have hs : 1 ≤ size := Nat.pos_of_ne_zero (NeZero.ne size)
  have hc : a.cap * 1 ≤ a.cap * size := Nat.mul_le_mul_left _ hs
  simp only [sizeMod, ptrdiffMax] at *
  omega

theorem resizeBytes_div [NeZero size] (a : GrowArray α size) :
    a.resizeBytes / size = a.cap * 2 := by
  have hs : 0 < size := Nat.pos_of_ne_zero (NeZero.ne size)
  rw [resizeBytes_eq, Nat.mul_right_comm, Nat.mul_div_cancel _ hs]

/-- Double the capacity. `realloc` keeps the old contents; it returns NULL, and the
process exits, only when the request is larger than any block can be. -/
def resize [NeZero size] (a : GrowArray α size) : Except Fault (GrowArray α size) :=
  if h : a.resizeBytes ≤ ptrdiffMax then
    .ok {
      cap := a.cap * 2 % sizeMod
      len := a.len
      block := a.block.take (a.resizeBytes / size)
      len_le := by
        have h1 := a.len_le_cap
        have h2 := a.len_le
        rw [List.length_take, resizeBytes_div]
        omega
      block_le := by
        rw [List.length_take, resizeBytes_div, doubled_cap]
        omega
      cap_pos := by
        have h1 := a.cap_pos
        rw [doubled_cap]
        omega
      cap_bytes := by
        rw [doubled_cap, Nat.mul_right_comm, ← resizeBytes_eq]
        exact h }
  else .error (.exit 1)

theorem resize_ok [NeZero size] {a b : GrowArray α size} (h : a.resize = .ok b) :
    b.cap = a.cap * 2 ∧ b.len = a.len ∧ b.block = a.block := by
  unfold resize at h
  split_ifs at h with hb
  obtain rfl := Except.ok.inj h
  have hl : a.block.length ≤ a.cap * 2 := a.block_le.trans (by omega)
  exact ⟨doubled_cap a, rfl, by simp only [resizeBytes_div, List.take_of_length_le hl]⟩

/-- Copy an element to index `len`. -/
def store (a : GrowArray α size) (x : α) : Except Fault (GrowArray α size) :=
  if h : a.len < a.cap then
    .ok {
      cap := a.cap
      len := a.len + 1
      block := a.block.take a.len ++ x :: a.block.drop (a.len + 1)
      len_le := by
        have h1 := a.len_le
        simp
        omega
      block_le := by
        have h1 := a.len_le
        have h2 := a.block_le
        simp
        omega
      cap_pos := a.cap_pos
      cap_bytes := a.cap_bytes }
  else .error .outOfBounds

def reserve [NeZero size] (a : GrowArray α size) : Except Fault (GrowArray α size) :=
  if a.len = a.cap then a.resize else .ok a

/-- Append, doubling the block first when it is full. -/
def push [NeZero size] (a : GrowArray α size) (x : α) : Except Fault (GrowArray α size) :=
  a.reserve >>= fun b => b.store x

theorem store_ok {a b : GrowArray α size} {x : α} (h : a.store x = .ok b) :
    b.live = a.live ++ [x] ∧ b.cap = a.cap := by
  unfold store at h
  split_ifs at h with hl
  obtain rfl := Except.ok.inj h
  have hlen : (a.block.take a.len).length = a.len := by simp [a.len_le]
  refine ⟨?_, rfl⟩
  simp only [live]
  rw [List.take_append, hlen, List.take_take]
  simp

theorem reserve_live [NeZero size] {a b : GrowArray α size} (h : a.reserve = .ok b) :
    b.live = a.live := by
  unfold reserve at h
  split_ifs at h
  · obtain ⟨-, hl, hb⟩ := resize_ok h
    rw [live, live, hl, hb]
  · rw [Except.ok.inj h]

theorem reserve_fault [NeZero size] {a : GrowArray α size} {f : Fault}
    (h : a.reserve = .error f) : f = .exit 1 ∧ ptrdiffMax < a.len * size * 2 := by
  unfold reserve resize at h
  split_ifs at h with hc hb
  rw [resizeBytes_eq, ← hc] at hb
  exact ⟨(Except.error.inj h).symm, by omega⟩

/-- The slot at `len` exists after `reserve`. -/
theorem reserve_room [NeZero size] {a b : GrowArray α size} (h : a.reserve = .ok b) :
    b.len < b.cap := by
  unfold reserve at h
  split_ifs at h with hc
  · obtain ⟨hcap, hl, -⟩ := resize_ok h
    have := a.cap_pos
    omega
  · obtain rfl := Except.ok.inj h
    have := a.len_le_cap
    omega

/-- Whenever a push returns, it has appended its element to the list. -/
theorem push_live [NeZero size] {a b : GrowArray α size} {x : α} (h : a.push x = .ok b) :
    b.live = a.live ++ [x] := by
  obtain ⟨c, hc, hs⟩ := bind_eq_ok.mp h
  rw [(store_ok hs).1, reserve_live hc]

/-- A push never writes outside its block: it returns, or the doubled request was refused. -/
theorem push_fault [NeZero size] {a : GrowArray α size} {x : α} {f : Fault}
    (h : a.push x = .error f) : f = .exit 1 ∧ ptrdiffMax < a.len * size * 2 := by
  cases hr : a.reserve with
  | error e =>
    have he : e = f := by simpa [push, hr] using h
    exact he ▸ reserve_fault hr
  | ok b => simp [push, hr, store, reserve_room hr] at h

/-- A push returns exactly when there is a free slot or the doubled block is granted. -/
theorem push_ok_iff [NeZero size] (a : GrowArray α size) (x : α) :
    (∃ b, a.push x = .ok b) ↔ a.len < a.cap ∨ a.cap * size * 2 ≤ ptrdiffMax := by
  have hle := a.len_le_cap
  constructor
  · rintro ⟨b, hb⟩
    obtain ⟨c, hc, -⟩ := bind_eq_ok.mp hb
    unfold reserve resize at hc
    split_ifs at hc with hfull hfit
    · rw [resizeBytes_eq] at hfit
      exact Or.inr hfit
    · exact Or.inl (by omega)
  · intro h
    cases hp : a.push x with
    | ok b => exact ⟨b, rfl⟩
    | error f =>
      rcases h with hfree | hfit
      · have hres : a.reserve = .ok a := if_neg hfree.ne
        simp [push, hres, store, hfree] at hp
      · have hbig := (push_fault hp).2
        have hmul := Nat.mul_le_mul_right size hle
        omega

/-- A push returns as long as twice the live elements fit in a block. -/
theorem push_total [NeZero size] (a : GrowArray α size) (x : α)
    (hl : a.len * size * 2 ≤ ptrdiffMax) : ∃ b, a.push x = .ok b := by
  cases h : a.push x with
  | ok b => exact ⟨b, rfl⟩
  | error f => exact absurd (push_fault h).2 (by omega)

/-- Other elements in the same block. -/
def withBlock (a : GrowArray α size) (l : List α) (h : l.length = a.block.length) :
    GrowArray α size where
  cap := a.cap
  len := a.len
  block := l
  len_le := h ▸ a.len_le
  block_le := h ▸ a.block_le
  cap_pos := a.cap_pos
  cap_bytes := a.cap_bytes

/-- Read the slot at index `i`. -/
def load (a : GrowArray α size) (i : Nat) : Except Fault α :=
  match a.block[i]? with
  | some x => .ok x
  | none => .error .outOfBounds

/-- Overwrite the slot at index `i`. -/
def assign (a : GrowArray α size) (i : Nat) (x : α) : Except Fault (GrowArray α size) :=
  if i < a.block.length then .ok (a.withBlock (a.block.set i x) List.length_set)
  else .error .outOfBounds

@[simp] theorem withBlock_block (a : GrowArray α size) (l : List α)
    (h : l.length = a.block.length) : (a.withBlock l h).block = l := rfl

@[simp] theorem withBlock_len (a : GrowArray α size) (l : List α)
    (h : l.length = a.block.length) : (a.withBlock l h).len = a.len := rfl

theorem load_ok {a : GrowArray α size} {i : Nat} {x : α} (h : a.block[i]? = some x) :
    a.load i = .ok x := by
  rw [load, h]

/-- A load below `len` finds the next live element. -/
theorem load_live {a : GrowArray α size} {i : Nat} (h : i < a.len) :
    ∃ x, a.load i = .ok x ∧ a.live.drop i = x :: a.live.drop (i + 1) := by
  have hl : i < a.live.length := by rwa [live_length]
  have hb : i < a.block.length := h.trans_le a.len_le
  refine ⟨a.live[i], load_ok ?_, List.drop_eq_getElem_cons hl⟩
  simp [live, List.getElem?_eq_getElem hb]

theorem assign_ok (a : GrowArray α size) {i : Nat} (x : α) (h : i < a.block.length) :
    a.assign i x = .ok (a.withBlock (a.block.set i x) List.length_set) := if_pos h

theorem reserve_cap [NeZero size] {a b : GrowArray α size} (h : a.reserve = .ok b) :
    b.cap = if a.len = a.cap then a.cap * 2 else a.cap := by
  unfold reserve at h
  split_ifs at h ⊢
  · exact (resize_ok h).1
  · rw [Except.ok.inj h]

theorem push_cap [NeZero size] {a b : GrowArray α size} {x : α} (h : a.push x = .ok b) :
    b.cap = if a.len = a.cap then a.cap * 2 else a.cap := by
  obtain ⟨c, hc, hs⟩ := bind_eq_ok.mp h
  rw [(store_ok hs).2, reserve_cap hc]

/-- A push fails only when the block is full and twice its size cannot be had. -/
theorem push_full [NeZero size] {a : GrowArray α size} {x : α} {f : Fault}
    (h : a.push x = .error f) :
    f = .exit 1 ∧ a.len = a.cap ∧ ptrdiffMax < a.cap * size * 2 := by
  have hno : ¬ ∃ b, a.push x = .ok b := by
    rintro ⟨b, hb⟩
    cases hb.symm.trans h
  rw [push_ok_iff, not_or, not_lt, not_le] at hno
  exact ⟨(push_fault h).1, Nat.le_antisymm a.len_le_cap hno.1, hno.2⟩

/-- Blocks for `n` more elements can be had, doubling for doubling. -/
def Room (a : GrowArray α size) (n : Nat) : Prop :=
  ∀ k, a.cap * 2 ^ k < a.len + n → a.cap * 2 ^ (k + 1) * size ≤ ptrdiffMax

theorem room_zero (a : GrowArray α size) : a.Room 0 := by
  intro k hk
  have hle := a.len_le_cap
  have hpow := Nat.mul_le_mul_left a.cap (Nat.one_le_two_pow (n := k))
  omega

theorem push_len [NeZero size] {a b : GrowArray α size} {x : α} (h : a.push x = .ok b) :
    b.len = a.len + 1 := by
  rw [← live_length, push_live h, List.length_append, live_length]
  rfl

theorem push_of_room [NeZero size] {a : GrowArray α size} {n : Nat} (x : α) (h : a.Room (n + 1)) :
    ∃ b, a.push x = .ok b := by
  apply (push_ok_iff a x).mpr
  have hle := a.len_le_cap
  by_cases hfull : a.len = a.cap
  · have hfirst := h 0 (by rw [Nat.pow_zero]; omega)
    rw [Nat.zero_add, Nat.pow_one, Nat.mul_right_comm] at hfirst
    exact Or.inr hfirst
  · exact Or.inl (by omega)

theorem room_push [NeZero size] {a b : GrowArray α size} {x : α} {n : Nat}
    (h : a.push x = .ok b) : a.Room (n + 1) ↔ b.Room n := by
  have hcap := push_cap h
  have hlen := push_len h
  unfold Room
  split_ifs at hcap with hfull
  · have hshift (k : Nat) : a.cap * 2 * 2 ^ k = a.cap * 2 ^ (k + 1) := by
      rw [Nat.pow_succ']
      ring
    rw [hcap, hlen]
    constructor
    · intro hr k hk
      rw [hshift] at hk ⊢
      exact hr (k + 1) (by omega)
    · intro hr k hk
      cases k with
      | zero =>
        have hgrant := (push_ok_iff a x).mp ⟨b, h⟩
        rw [Nat.zero_add, Nat.pow_one, Nat.mul_right_comm]
        omega
      | succ k =>
        have hrest := hr k (by rw [hshift]; omega)
        rwa [hshift] at hrest
  · rw [hcap, hlen, Nat.add_right_comm, Nat.add_assoc]

def shrink (a : GrowArray α size) : GrowArray α size where
  cap := a.cap
  len := a.len - 1
  block := a.block
  len_le := (Nat.sub_le _ _).trans a.len_le
  block_le := a.block_le
  cap_pos := a.cap_pos
  cap_bytes := a.cap_bytes

/-- Take the last element off into `buf`, and put `zero` in its slot. -/
def pop (a : GrowArray α size) (zero buf : α) : Except Fault (GrowArray α size × α) :=
  if a.len < 1 then .ok (a, buf) else do
    let x ← a.load (a.len - 1)
    let a ← a.assign (a.len - 1) zero
    return (a.shrink, x)

theorem assign_len {a b : GrowArray α size} {i : Nat} {x : α} (h : a.assign i x = .ok b) :
    b.len = a.len := by
  unfold assign at h
  split_ifs at h
  rw [← Except.ok.inj h]
  rfl

theorem pop_empty {a : GrowArray α size} (zero buf : α) (h : a.len = 0) :
    a.pop zero buf = .ok (a, buf) := by
  rw [pop, if_pos (by omega)]

theorem pop_ok {a : GrowArray α size} (zero buf : α) (h : a.len ≠ 0) :
    ∃ b x, a.pop zero buf = .ok (b, x) ∧ a.live = b.live ++ [x] ∧ b.cap = a.cap := by
  have hle := a.len_le
  have hi : a.len - 1 < a.block.length := by omega
  have hlast := List.take_succ_eq_append_getElem hi
  rw [Nat.sub_add_cancel (Nat.pos_of_ne_zero h)] at hlast
  refine ⟨(a.withBlock (a.block.set (a.len - 1) zero) List.length_set).shrink,
    a.block[a.len - 1], ?_, ?_, rfl⟩
  · rw [pop, if_neg (by omega), load_ok (List.getElem?_eq_getElem hi), ok_bind, assign_ok _ _ hi]
    rfl
  · change a.block.take a.len = (a.block.set (a.len - 1) zero).take (a.len - 1) ++ _
    rw [hlast, List.take_set_of_le (Nat.le_refl _)]

end GrowArray

end PeerToPeer.CLib
