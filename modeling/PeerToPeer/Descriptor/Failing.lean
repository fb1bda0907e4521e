import PeerToPeer.Descriptor.Reading

namespace PeerToPeer

open CLib Json

/-- Whatever the run returns, `main` goes on. -/
def Accepted (run : Except Fault (Int × DesciptorFile)) : Prop := ∀ r, run = .ok r → 0 ≤ r.1

namespace Accepted

theorem ok {r : Int} (h : 0 ≤ r) (file : DesciptorFile) : Accepted (.ok (r, file)) := by
  intro s hs
  rw [← Except.ok.inj hs]
  exact h

theorem one (file : DesciptorFile) : Accepted (.ok (1, file)) := ok Int.one_nonneg file

theorem bind {α : Type} {x : Except Fault α} {f : α → Except Fault (Int × DesciptorFile)}
    (h : ∀ a, x = .ok a → Accepted (f a)) : Accepted (x >>= f) := by
  intro r hr
  obtain ⟨a, ha, hfa⟩ := bind_eq_ok.mp hr
  exact h a ha r hfa

theorem ite {p : Prop} [Decidable p] {x y : Except Fault (Int × DesciptorFile)}
    (hx : Accepted x) (hy : Accepted y) : Accepted (if p then x else y) := by
  split_ifs
  · exact hx
  · exact hy

end Accepted

section Results

variable (mem : DescriptorMemory) (file : DesciptorFile)

theorem nodesLoop_accepted (i : Nat) (els : List Json) (k : Nat) :
    Accepted (nodesLoop mem i els k file) := by
  induction els generalizing k file with
  | nil => exact .ok (Int.le_refl 0) file
  | cons el els ih =>
    rw [nodesLoop]
    apply Accepted.ite (.one file)
    apply Accepted.ite (.one file)
    apply Accepted.ite (.one file)
    apply Accepted.bind
    intro port _
    apply Accepted.bind
    intro s _
    apply Accepted.bind
    intro ip _
    apply Accepted.bind
    intro nodes _
    exact ih _ _

theorem finishDescriptor_accepted (fHk fPclen : Option Json) (arrSize : Int32) :
    Accepted (finishDescriptor fHk fPclen arrSize file) := by
  apply Accepted.bind
  intro s _
  apply Accepted.bind
  intro hash _
  apply Accepted.bind
  intro v _
  apply Accepted.bind
  intro _ _
  exact .ok (Int.le_refl 0) _

theorem fillFields_accepted (dfJson : Option Json) : Accepted (fillFields mem dfJson file) := by
  apply Accepted.ite (.one file)
  apply Accepted.ite (.one file)
  apply Accepted.ite (.one file)
  apply Accepted.ite (.one file)
  apply Accepted.bind
  intro r hr
  apply Accepted.ite
  · exact .ok (nodesLoop_accepted mem _ 0 _ 0 r hr) r.2
  · exact finishDescriptor_accepted _ _ _ _

theorem fillDescriptor_accepted (dfJson : Option Json) :
    Accepted (fillDescriptor mem dfJson file) := by
  apply Accepted.ite (.one file)
  apply Accepted.ite (.one file)
  apply Accepted.ite (.one file)
  apply Accepted.ite (.one file)
  apply Accepted.bind
  intro path _
  apply Accepted.bind
  intro name _
  apply Accepted.bind
  intro length _
  exact fillFields_accepted mem _ dfJson

end Results

section Start

variable (cJSON : List UInt8 → Option Json) (mem : DescriptorMemory) (disk : OnDisk)

/-- Once the file is open, no return value is a failure to `main`. -/
theorem parseDescriptorFile_accepted (file : DesciptorFile) (h : disk ≠ .missing) :
    Accepted (parseDescriptorFile cJSON mem disk file) := by
  have hopen (buffer : Bytes fileBufferSize) : Accepted (do
      let dfJson ← parseBuffer cJSON buffer
      if dfJson.isNone then return (1, file)
      fillDescriptor mem dfJson file) := by
    apply Accepted.bind
    intro dfJson _
    exact .ite (.one file) (fillDescriptor_accepted mem file dfJson)
  cases disk with
  | missing => exact absurd rfl h
  | unreadable => exact hopen _
  | regular content => exact hopen _

theorem startClient_stops_iff : startClient cJSON mem disk = .ok none ↔ disk = .missing := by
  constructor
  · intro h
    by_contra hopen
    obtain ⟨⟨r, file⟩, hrun, h⟩ := bind_eq_ok.mp h
    have hr := parseDescriptorFile_accepted cJSON mem disk .zeroed hopen _ hrun
    dsimp only at h hr
    rw [if_neg (not_lt.mpr hr)] at h
    cases h
  · intro h
    rw [h]
    rfl

/-- The document that reaches `cJSON_Parse`. -/
def Parsed (doc : Json) : Prop :=
  ∃ buffer, loadBuffer mem disk = some buffer ∧ parseBuffer cJSON buffer = .ok (some doc)

/-- The run leaves in the struct all that a descriptor says whose fields have their types. -/
def FillsAll : Prop :=
  ∃ doc d r file, Parsed cJSON mem disk doc ∧ Says doc d ∧
    parseDescriptorFile cJSON mem disk .zeroed = .ok (r, file) ∧ Holds d file

/-- The buffer holds a descriptor whose strings fit, with one node or none. -/
def Fillable : Prop :=
  ∃ doc d, Parsed cJSON mem disk doc ∧ Says doc d ∧ Fits d ∧ d.nodes.length ≤ 1

variable {cJSON mem disk}

theorem Parsed.run {doc : Json} (h : Parsed cJSON mem disk doc) (file : DesciptorFile) :
    parseDescriptorFile cJSON mem disk file = fillDescriptor mem (some doc) file := by
  obtain ⟨buffer, hload, hparse⟩ := h
  rw [parseDescriptorFile, hload]
  dsimp only
  rw [hparse]
  rfl

/-- What the struct holds has room in it. -/
theorem Holds.fits {d : Descriptor} {file : DesciptorFile} (h : Holds d file) : Fits d := by
  constructor
  · rw [← h.hashKey]
    exact Bytes.str_length_lt h.terminated
  · intro node hnode
    obtain ⟨k, hk, rfl⟩ := List.getElem_of_mem hnode
    obtain ⟨o, -, hcopy⟩ := h.nodes k hk
    rw [← hcopy.ip]
    exact Bytes.str_length_lt hcopy.terminated
  · rw [← h.nodeLen]
    exact Nat.lt_succ_iff.mp file.nodeLen.toNat_lt

theorem fillsAll_iff : FillsAll cJSON mem disk ↔ Fillable cJSON mem disk := by
  constructor
  · rintro ⟨doc, d, r, file, hparsed, hdoc, hrun, hholds⟩
    rw [hparsed.run] at hrun
    exact ⟨doc, d, hparsed, hdoc, hholds.fits, fillDescriptor_few hdoc hholds.fits hrun⟩
  · rintro ⟨doc, d, hparsed, hdoc, hfits, hfew⟩
    obtain ⟨file, hrun, hholds⟩ := fillDescriptor_holds hdoc hfits hfew mem .zeroed
    exact ⟨doc, d, 0, file, hparsed, hdoc, (hparsed.run _).trans hrun, hholds⟩

/-- A descriptor that is not read completely stops the client exactly when its file cannot be
opened. -/
theorem rejected_stops_iff : (¬ FillsAll cJSON mem disk → startClient cJSON mem disk = .ok none) ↔
    (Fillable cJSON mem disk ∨ disk = .missing) := by
  rw [fillsAll_iff, startClient_stops_iff, or_iff_not_imp_left]

end Start

/-- After an empty descriptor the client goes on, with the struct as it was. -/
theorem empty_descriptor_accepted : ¬ FillsAll (fun _ => none) zeroedMemory (.regular []) ∧
    startClient (fun _ => none) zeroedMemory (.regular []) = .ok (some .zeroed) := by
  have hterm : Terminated zeroedMemory.buffer.mem := by decide +kernel
  have hparse : parseBuffer (fun _ => none) (readLoop [] zeroedMemory.buffer) = .ok none := by
    rw [readLoop_nil, parseBuffer, if_pos hterm]
  constructor
  · intro hfills
    obtain ⟨doc, d, r, file, hparsed, -⟩ := hfills
    obtain ⟨buffer, hload, hdoc⟩ := hparsed
    rw [loadBuffer, Option.some.injEq] at hload
    rw [← hload, hparse] at hdoc
    cases hdoc
  · rw [startClient, parseDescriptorFile, loadBuffer]
    dsimp only
    rw [hparse]
    rfl

end PeerToPeer
