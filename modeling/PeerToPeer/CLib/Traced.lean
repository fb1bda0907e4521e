import PeerToPeer.CLib.GrowArray

namespace PeerToPeer.CLib

/-- A read of an array element: the index, and the `len` of the array at that moment. -/
structure Read where
  index : Nat
  len : Nat
  deriving DecidableEq, Repr

/-- A computation with the array elements it has read, also when it ends in a fault. -/
structure Traced (α : Type) where
  reads : List Read
  result : Except Fault α

namespace Traced

variable {α β : Type}

instance : Monad Traced where
  pure a := ⟨[], .ok a⟩
  bind x f := match x.result with
    | .ok a => ⟨x.reads ++ (f a).reads, (f a).result⟩
    | .error e => ⟨x.reads, .error e⟩

/-- A computation that reads no element. -/
def lift (x : Except Fault α) : Traced α := ⟨[], x⟩

/-- A read of the element at `i`, with what comes of it. -/
def read {size : Nat} (a : GrowArray α size) (i : Nat) (r : Except Fault β) : Traced β :=
  ⟨[⟨i, a.len⟩], r⟩

def load {size : Nat} (a : GrowArray α size) (i : Nat) : Traced α := read a i (a.load i)

/-- A read for a log line, of which nothing is modelled but that it takes place. -/
def note {size : Nat} (a : GrowArray α size) (i : Nat) : Traced Unit := read a i (.ok ())

/-- A read for a log line that has to stay inside the allocated block. -/
def peek {size : Nat} (a : GrowArray α size) (i : Nat) : Traced Unit :=
  read a i (if i < a.cap then .ok () else .error .outOfBounds)

/-- Only elements of the array were read. -/
def Live (t : Traced α) : Prop := ∀ r ∈ t.reads, r.index < r.len

instance (t : Traced α) : Decidable t.Live := inferInstanceAs (Decidable (∀ r ∈ t.reads, _))

@[simp] theorem result_lift (x : Except Fault α) : (lift x).result = x := rfl

@[simp] theorem result_bind (x : Traced α) (f : α → Traced β) :
    (x >>= f).result = x.result >>= fun a => (f a).result := by
  change (match x.result with
    | .ok a => (⟨x.reads ++ (f a).reads, (f a).result⟩ : Traced β)
    | .error e => ⟨x.reads, .error e⟩).result = _
  cases x.result <;> rfl

theorem reads_bind_ok {x : Traced α} {f : α → Traced β} {a : α} (h : x.result = .ok a) :
    (x >>= f).reads = x.reads ++ (f a).reads := by
  change (match x.result with
    | .ok a => (⟨x.reads ++ (f a).reads, (f a).result⟩ : Traced β)
    | .error e => ⟨x.reads, .error e⟩).reads = _
  rw [h]

theorem reads_bind_error {x : Traced α} {f : α → Traced β} {e : Fault} (h : x.result = .error e) :
    (x >>= f).reads = x.reads := by
  change (match x.result with
    | .ok a => (⟨x.reads ++ (f a).reads, (f a).result⟩ : Traced β)
    | .error e => ⟨x.reads, .error e⟩).reads = _
  rw [h]

theorem Live.pure (a : α) : (Pure.pure a : Traced α).Live := fun _ h => absurd h List.not_mem_nil

theorem Live.lift (x : Except Fault α) : (lift x).Live := fun _ h => absurd h List.not_mem_nil

/-- What comes after a computation that returns decides whether the whole is live. -/
theorem live_bind_iff {x : Traced α} {f : α → Traced β} :
    (x >>= f).Live ↔ x.Live ∧ ∀ a, x.result = .ok a → (f a).Live := by
  cases h : x.result with
  | error e => simp [Live, reads_bind_error h]
  | ok a => simp [Live, reads_bind_ok h, or_imp, forall_and]

theorem Live.bind {x : Traced α} {f : α → Traced β} (hx : x.Live)
    (hf : ∀ a, x.result = .ok a → (f a).Live) : (x >>= f).Live := live_bind_iff.mpr ⟨hx, hf⟩

section Array

variable {size : Nat} {a : GrowArray α size} {i : Nat}

theorem live_read {r : Except Fault β} : (read a i r).Live ↔ i < a.len := by
  simp [Live, read]

theorem live_load : (load a i).Live ↔ i < a.len := live_read

theorem live_note : (note a i).Live ↔ i < a.len := live_read

theorem live_peek : (peek a i).Live ↔ i < a.len := live_read

@[simp] theorem result_load : (load a i).result = a.load i := rfl

@[simp] theorem result_note : (note a i).result = .ok () := rfl

@[simp] theorem result_peek :
    (peek a i).result = if i < a.cap then .ok () else .error .outOfBounds := rfl

end Array

end Traced

end PeerToPeer.CLib
