import Dispatch.Proofs.FlatArguments

/-!
# Where things are in a frame

A frame is laid out word by word, in a fixed order, so the place of every field
follows from the native signature.  What a caller puts into a frame is the same as
what it puts into a flat argument list, in another order and with components instead
of native words.

## Main definitions

* `Lowered.paramsAt` and its companions — the word where each part of a frame starts.
* `Lowered.frameLayout` — the standard frame of a native signature.
* `Parts.toFrame`, `Parts.FitsFrame` — the words of a frame.

## Main results

* `Layout.frame_of_lower` — without deviations, the frame of a method is the standard
  one, and its size is below the limit of sizes.
-/

namespace Dispatch

open Attempt

/-! ### Fields -/

/-- The words that a value passed this way takes in a frame. -/
def Passing.frameWords : Passing → Nat
  | direct schema => schema.components.length
  | indirect _ => 1
  | address => 1

/-- The words of several parameters in a frame. -/
def frameWords (carriers : List Carrier) : Nat := (carriers.map fun c => c.passing.frameWords).sum

@[simp] theorem frameWords_cons (c : Carrier) (cs : List Carrier) :
    frameWords (c :: cs) = c.passing.frameWords + frameWords cs := by
  simp [frameWords]

/-- The field of a value whose first word has the given index. -/
def FrameField.ofPassing (start : Nat) : Passing → FrameField
  | .direct schema => .inline (8 * start) schema.components
  | .indirect _ => .address (8 * start)
  | .address => .address (8 * start)

/-- The fields of parameters, the first of which starts at word `start`. -/
def frameFields (start : Nat) : List Carrier → List FrameField
  | [] => []
  | c :: rest =>
    FrameField.ofPassing start c.passing :: frameFields (start + c.passing.frameWords) rest

@[simp] theorem length_frameFields (carriers : List Carrier) (start : Nat) :
    (frameFields start carriers).length = carriers.length := by
  induction carriers generalizing start with
  | nil => rfl
  | cons c rest ih => simp [frameFields, ih]

/-! ### The standard frame -/

namespace Lowered

/-- The word of the error slot; the header comes before it. -/
def errorAt (_ : Lowered) : Nat := 2

/-- The word of the result address. -/
def indirectAt (s : Lowered) : Nat := s.errorAt + if s.throws then 1 else 0

/-- The first word of the parameters. -/
def paramsAt (s : Lowered) : Nat := s.indirectAt + if s.hasIndirectReturn then 1 else 0

/-- The first word of the bindings. -/
def bindingsAt (s : Lowered) : Nat := s.paramsAt + frameWords s.carriers

/-- The word of the receiver. -/
def receiverAt (s : Lowered) : Nat := s.bindingsAt + s.bindingCount

/-- The word of the self metadata; the witness table is behind it. -/
def witnessAt (s : Lowered) : Nat := s.receiverAt + 1

/-- The first word of the results. -/
def resultsAt (s : Lowered) : Nat := s.witnessAt + if s.witness then 2 else 0

/-- The kinds of the components of a result that the frame holds. -/
def resultScalars (s : Lowered) : List Scalar :=
  match s.result.passing with
  | .direct schema => schema.components
  | .indirect _ => []
  | .address => []

/-- The words of a frame. -/
def frameEnd (s : Lowered) : Nat := s.resultsAt + s.resultScalars.length

/-- The standard frame. -/
def frameLayout (s : Lowered) : Frame where
  errorSlot := if s.throws then some (8 * s.errorAt) else none
  indirectReturn := if s.hasIndirectReturn then some (8 * s.indirectAt) else none
  args := frameFields s.paramsAt s.carriers
  bindings := 8 * s.bindingsAt
  bindingCount := s.bindingCount
  localContext := 8 * s.receiverAt
  selfMetadata := if s.witness then some (8 * s.witnessAt) else none
  selfWitnessTable := if s.witness then some (8 * (s.witnessAt + 1)) else none
  results :=
    if s.resultScalars.isEmpty then none
    else some (.inline (8 * s.resultsAt) s.resultScalars)
  size := 8 * s.frameEnd

end Lowered

/-! ### Laying out

Laying out a frame fails only when the frame is too large.  In each lemma, `E` stands for
what follows when the offset behind the field is not below the limit of sizes. -/

namespace Cursor

variable {E : Prop}

theorem ends_advance (bytes here : Nat) (hE : Size.limit ≤ here + bytes → E) :
    Step.Ends (advance bytes) here
      (fun offset next => offset = here ∧ next = here + bytes ∧ next < Size.limit)
      fun _ _ => E := by
  rw [advance, Step.ends_bind, Step.ends_get, Step.ends_bind, addSize]
  by_cases hlt : here + bytes < Size.limit
  · rw [Size.add?_eq_some_iff.mpr ⟨rfl, hlt⟩, Attempt.fits]
    exact ⟨rfl, rfl, hlt⟩
  · rw [Size.add?, if_neg hlt]
    exact hE (Nat.le_of_not_lt hlt)

theorem ends_wordIf (present : Bool) (j : Nat) (hj : 8 * j < Size.limit)
    (hE : Size.limit ≤ 8 * (j + if present then 1 else 0) → E) :
    Step.Ends (wordIf present) (8 * j)
      (fun offset next => offset = (if present then some (8 * j) else none) ∧
        next = 8 * (j + if present then 1 else 0) ∧ next < Size.limit)
      fun _ _ => E := by
  cases present with
  | false => exact ⟨rfl, by simp, hj⟩
  | true =>
    rw [wordIf, if_pos rfl, Step.ends_bind]
    refine (ends_advance wordBytes (8 * j) fun h => hE ?_).imp (fun offset next h => ?_)
      fun _ _ h => h
    · simp only [wordBytes, if_true] at h ⊢
      omega
    · obtain ⟨rfl, rfl, hlt⟩ := h
      exact ⟨rfl, by simp only [wordBytes, if_true]; omega, hlt⟩

/-- A number of bytes, or too many of them. -/
theorem mulSize_cases (a b : Nat) :
    (mulSize a b = .ok (a * b) ∧ a * b < Size.limit) ∨
      (∃ fault, mulSize a b = .error fault) ∧ Size.limit ≤ a * b := by
  by_cases hlt : a * b < Size.limit
  · exact Or.inl ⟨by rw [mulSize, Size.mul?_eq_some_iff.mpr ⟨rfl, hlt⟩, Attempt.fits], hlt⟩
  · exact Or.inr ⟨⟨_, by rw [mulSize, Size.mul?, if_neg hlt]; rfl⟩, Nat.le_of_not_lt hlt⟩

theorem ends_value (passing : Passing) (j : Nat)
    (hE : Size.limit ≤ 8 * (j + passing.frameWords) → E) :
    Step.Ends (value passing) (8 * j)
      (fun field next => field = FrameField.ofPassing j passing ∧
        next = 8 * (j + passing.frameWords) ∧ next < Size.limit)
      fun _ _ => E := by
  have hword : Step.Ends (word >>= fun offset => pure (.address offset)) (8 * j)
      (fun (field : FrameField) next => field = .address (8 * j) ∧ next = 8 * (j + 1) ∧
        next < Size.limit) fun _ _ => Size.limit ≤ 8 * (j + 1) := by
    rw [Step.ends_bind]
    refine (ends_advance wordBytes (8 * j) fun h => h).imp (fun offset next h => ?_)
      fun _ _ h => by simp only [wordBytes] at h; omega
    obtain ⟨rfl, rfl, hlt⟩ := h
    exact ⟨rfl, by simp only [wordBytes]; omega, hlt⟩
  cases passing with
  | direct schema =>
    rw [value, Step.ends_bind]
    simp only [Passing.frameWords] at hE ⊢
    rcases mulSize_cases schema.components.length wordBytes with
      ⟨hbytes, -⟩ | ⟨⟨fault, hbytes⟩, hlimit⟩
    · rw [hbytes, Step.ends_liftM_ok, Step.ends_bind]
      refine (ends_advance _ (8 * j) fun h => hE ?_).imp (fun offset next h => ?_) fun _ _ h => h
      · simp only [wordBytes] at h
        omega
      · obtain ⟨rfl, rfl, hlt⟩ := h
        exact ⟨rfl, by simp only [wordBytes]; omega, hlt⟩
    · rw [hbytes, Step.ends_liftM_error]
      simp only [wordBytes] at hlimit
      exact hE (by omega)
  | indirect schema => exact hword.imp (fun _ _ h => h) fun _ _ => hE
  | address => exact hword.imp (fun _ _ h => h) fun _ _ => hE

theorem ends_results {s : Lowered} (j : Nat) (hj : 8 * j < Size.limit)
    (hE : Size.limit ≤ 8 * (j + s.resultScalars.length) → E) :
    Step.Ends (results s.result.passing) (8 * j)
      (fun field next => field = (if s.resultScalars.isEmpty then none
          else some (.inline (8 * j) s.resultScalars)) ∧
        next = 8 * (j + s.resultScalars.length) ∧ next < Size.limit)
      fun _ _ => E := by
  unfold Lowered.resultScalars at *
  cases hp : s.result.passing with
  | direct schema =>
    rw [hp] at hE
    rw [results]
    cases hc : schema.components with
    | nil =>
      refine ⟨?_, ?_, hj⟩
      · simp only [hc, List.isEmpty_nil, if_true]
      · simp only [hc, List.length_nil, Nat.add_zero]
    | cons kind rest =>
      rw [List.isEmpty_cons, if_neg (by decide), Step.ends_bind]
      refine (ends_value (.direct schema) j hE).imp (fun field next h => ?_) fun _ _ h => h
      obtain ⟨rfl, rfl, hlt⟩ := h
      refine ⟨?_, ?_, hlt⟩
      · simp only [FrameField.ofPassing, hc, List.isEmpty_cons, Bool.false_eq_true, if_false]
      · simp only [Passing.frameWords, hc]
  | indirect schema => exact ⟨rfl, by simp, hj⟩
  | address => exact ⟨rfl, by simp, hj⟩

end Cursor

namespace Layout

variable {l : Layout} {p : Pool} {m : Method} {s : Lowered}

theorem ends_frameArgs {types : List TypeId} {carriers : List Carrier} {E : Prop}
    (hc : types.mapM (l.carrier p) = .ok carriers) (j : Nat) (hj : 8 * j < Size.limit)
    (hE : Size.limit ≤ 8 * (j + frameWords carriers) → E) :
    Step.Ends (l.frameArgs p types) (8 * j)
      (fun fields next => fields = frameFields j carriers ∧
        next = 8 * (j + frameWords carriers) ∧ next < Size.limit)
      fun _ _ => E := by
  induction types generalizing carriers j with
  | nil =>
    cases hc
    exact ⟨rfl, by simp [frameWords], hj⟩
  | cons type rest ih =>
    obtain ⟨c, cs, hone, hcs, rfl⟩ := mapM_cons_eq_ok.mp hc
    obtain ⟨passing, hpassing, hone⟩ := bind_eq_ok.mp hone
    cases hone
    simp only [frameWords_cons] at hE
    rw [frameArgs, hpassing, Step.ends_bind, Step.ends_liftM_ok, Step.ends_bind]
    refine (Cursor.ends_value passing j fun h => hE (by omega)).imp (fun field next h => ?_)
      fun _ _ h => h
    obtain ⟨rfl, rfl, hlt⟩ := h
    rw [Step.ends_bind]
    refine (ih hcs _ hlt fun h => hE (by omega)).imp (fun fields next h => ?_) fun _ _ h => h
    obtain ⟨rfl, rfl, hlt⟩ := h
    exact ⟨rfl, by simp only [frameWords_cons]; omega, hlt⟩

/-- What a method's native signature says, apart from the frame. -/
structure Describes (l : Layout) (p : Pool) (m : Method) (s : Lowered) : Prop where
  convention : s.convention = m.convention
  witness : s.witness = m.isWitness
  throws : s.throws = m.signature.throws
  carriers : m.signature.params.mapM (l.carrier p) = .ok s.carriers
  result : l.carrier p m.signature.result = .ok s.result
  bindingCount : m.signature.generics.bindingCount = .ok s.bindingCount

/-- What lowering a method gives, field by field. -/
structure Lowers (l : Layout) (p : Pool) (m : Method) (s : Lowered) : Prop
    extends l.Describes p m s where
  frame : (m.convention.isAsync = false ∧ s.frame = none) ∨
    ∃ f, m.convention.isAsync = true ∧ l.frame p m = .ok f ∧ s.frame = some f

theorem lowers_of_lower (h : l.lower p m = .ok s) : l.Lowers p m s := by
  obtain ⟨carriers, hcarriers, h⟩ := bind_eq_ok.mp h
  obtain ⟨result, hresult, h⟩ := bind_eq_ok.mp h
  obtain ⟨count, hcount, h⟩ := bind_eq_ok.mp h
  cases ha : m.convention.isAsync with
  | false =>
    simp only [ha, Bool.false_eq_true, if_false, pure_eq, ok_bind, Except.ok.injEq] at h
    subst h
    exact ⟨⟨rfl, rfl, rfl, hcarriers, hresult, hcount⟩, Or.inl ⟨ha, rfl⟩⟩
  | true =>
    simp only [ha, if_true] at h
    obtain ⟨frame, hframe, h⟩ := bind_eq_ok.mp h
    obtain ⟨f, hf, rfl⟩ := map_eq_ok.mp hframe
    cases h
    exact ⟨⟨rfl, rfl, rfl, hcarriers, hresult, hcount⟩, Or.inr ⟨f, ha, hf, rfl⟩⟩

/-- A method has a frame exactly if it is asynchronous. -/
theorem isSome_frame_of_lower (h : l.lower p m = .ok s) :
    s.frame.isSome = s.convention.isAsync := by
  have hlow := lowers_of_lower h
  rw [hlow.convention]
  rcases hlow.frame with ⟨hflat, hnone⟩ | ⟨f, hasync, -, hsome⟩
  · rw [hnone, hflat, Option.isSome_none]
  · rw [hsome, hasync, Option.isSome_some]

/-- Laying out gives the standard frame, unless that is too large. -/
theorem Describes.ends_layOut (h : l.Describes p m s) :
    Step.Ends (l.layOut p m) (8 * s.errorAt)
      (fun f _ => f = s.frameLayout ∧ f.size < Size.limit)
      fun _ _ => Size.limit ≤ 8 * s.frameEnd := by
  have hresult : l.passing p m.signature.result = .ok s.result.passing := by
    obtain ⟨passing, hp, hr⟩ := bind_eq_ok.mp h.result
    rw [hp, ← Except.ok.inj hr]
  -- every field ends before the frame does
  have hend : s.frameEnd = s.resultsAt + s.resultScalars.length := rfl
  have hresults : s.resultsAt = s.witnessAt + if s.witness then 2 else 0 := rfl
  have hwitness : s.witnessAt = s.bindingsAt + s.bindingCount + 1 := rfl
  have hbindings : s.bindingsAt = s.paramsAt + frameWords s.carriers := rfl
  have hparams : s.paramsAt = s.indirectAt + if s.hasIndirectReturn then 1 else 0 := rfl
  have hindirect : s.indirectAt = s.errorAt + if s.throws then 1 else 0 := rfl
  rw [layOut, Step.ends_bind]
  refine (Cursor.ends_wordIf m.signature.throws s.errorAt (by rw [Lowered.errorAt]; decide) ?_).imp
    (fun errorSlot next hn => ?_) fun _ _ h => h
  · rw [← h.throws]
    omega
  obtain ⟨rfl, rfl, hlt⟩ := hn
  rw [← h.throws, ← hindirect] at hlt ⊢
  rw [hresult, Step.ends_bind, Step.ends_liftM_ok, Step.ends_bind]
  refine (Cursor.ends_wordIf s.hasIndirectReturn s.indirectAt hlt (by omega)).imp
    (fun indirectReturn next hn => ?_) fun _ _ h => h
  obtain ⟨rfl, rfl, hlt⟩ := hn
  rw [Step.ends_bind]
  refine (ends_frameArgs h.carriers s.paramsAt hlt (by omega)).imp (fun args next hn => ?_)
    fun _ _ h => h
  obtain ⟨rfl, rfl, hlt⟩ := hn
  rw [h.bindingCount, Step.ends_bind, Step.ends_liftM_ok, Step.ends_bind]
  rcases Cursor.mulSize_cases s.bindingCount wordBytes with ⟨hbytes, -⟩ | ⟨⟨fault, hbytes⟩, hlimit⟩
  case inr =>
    rw [hbytes, Step.ends_liftM_error]
    simp only [wordBytes] at hlimit
    omega
  rw [hbytes, Step.ends_liftM_ok, Step.ends_bind]
  refine (Cursor.ends_advance _ _ fun h => ?_).imp (fun bindings next hn => ?_) fun _ _ h => h
  · simp only [wordBytes] at h
    omega
  obtain ⟨rfl, rfl, hlt⟩ := hn
  rw [Step.ends_bind]
  refine (Cursor.ends_advance _ _ fun h => ?_).imp (fun localContext next hn => ?_) fun _ _ h => h
  · simp only [wordBytes] at h
    omega
  obtain ⟨rfl, rfl, hlt⟩ := hn
  have hreceiver : 8 * (s.paramsAt + frameWords s.carriers) + s.bindingCount * wordBytes
      = 8 * s.receiverAt := by
    simp only [Lowered.receiverAt, Lowered.bindingsAt, wordBytes]
    omega
  have hnext : 8 * s.receiverAt + wordBytes = 8 * s.witnessAt := by
    simp only [Lowered.witnessAt, wordBytes]
    omega
  rw [hreceiver, hnext] at hlt ⊢
  rw [← h.witness, Step.ends_bind]
  have htwo : s.witnessAt + (if s.witness = true then 1 else 0)
      + (if s.witness = true then 1 else 0) = s.resultsAt := by
    rw [Lowered.resultsAt]
    split <;> rfl
  refine (Cursor.ends_wordIf s.witness s.witnessAt hlt (by omega)).imp (fun metadata next hn => ?_)
    fun _ _ h => h
  obtain ⟨rfl, rfl, hlt⟩ := hn
  rw [Step.ends_bind]
  refine (Cursor.ends_wordIf s.witness _ hlt (by omega)).imp (fun table next hn => ?_)
    fun _ _ h => h
  obtain ⟨rfl, rfl, hlt⟩ := hn
  rw [htwo] at hlt ⊢
  rw [Step.ends_bind]
  refine (Cursor.ends_results s.resultsAt hlt (by omega)).imp (fun results next hn => ?_)
    fun _ _ h => h
  obtain ⟨rfl, rfl, hlt⟩ := hn
  rw [Step.ends_bind, Step.ends_get]
  refine ⟨?_, hlt⟩
  simp only [Lowered.frameLayout, Frame.mk.injEq, true_and]
  refine ⟨rfl, ?_, rfl⟩
  cases s.witness <;> rfl

/-- The standard frame of a method is that of its native signature, unless that is too
large. -/
theorem Describes.standardFrame (h : l.Describes p m s) :
    (l.standardFrame p m = .ok s.frameLayout ∧ 8 * s.frameEnd < Size.limit) ∨
      (∃ fault, l.standardFrame p m = .error fault) ∧ Size.limit ≤ 8 * s.frameEnd := by
  have hends := h.ends_layOut
  have hheader : frameHeaderBytes = 8 * s.errorAt := rfl
  rw [Layout.standardFrame, hheader]
  unfold Step.Ends at hends
  split at hends
  · next f n hrun =>
    obtain ⟨rfl, hsize⟩ := hends
    exact Or.inl ⟨by simp only [hrun], hsize⟩
  · next fault n hrun => exact Or.inr ⟨⟨fault, by simp only [hrun]⟩, hends⟩

/-- Without deviations, the frame of a method is the standard one. -/
theorem frame_of_lower (hl : l.frameEdits = []) (h : l.lower p m = .ok s) :
    (s.convention.isAsync = false ∧ s.frame = none) ∨
      (s.convention.isAsync = true ∧ s.frame = some s.frameLayout ∧ 8 * s.frameEnd < Size.limit) := by
  have hlow := lowers_of_lower h
  rw [hlow.convention]
  rcases hlow.frame with hnone | ⟨f, hasync, hf, hframe⟩
  · exact Or.inl hnone
  · obtain ⟨f', hf', hf⟩ := bind_eq_ok.mp hf
    rw [hl] at hf
    cases hf
    rcases hlow.toDescribes.standardFrame with ⟨hstandard, hsize⟩ | ⟨⟨fault, hstandard⟩, -⟩
    · rw [hf', Except.ok.injEq] at hstandard
      subst hstandard
      exact Or.inr ⟨hasync, hframe, hsize⟩
    · rw [hf'] at hstandard
      cases hstandard

end Layout

/-! ### The words of a frame -/

namespace Parts

variable {α β : Type} {s : Lowered}

/-- The words of a frame, from the error slot up to the results. -/
def toFrame (p : Parts α) : List α :=
  p.errorSlot.toList ++ p.indirectReturn.toList ++ p.params ++ p.bindings ++ [p.receiver]
    ++ witnessList p.witness

/-- The parts that a frame of the signature has are there. -/
structure FitsFrame (s : Lowered) (p : Parts α) : Prop where
  resume : p.resumeBuffer = none
  indirect : p.indirectReturn.isSome = s.hasIndirectReturn
  params : p.params.length = frameWords s.carriers
  bindings : p.bindings.length = s.bindingCount
  error : p.errorSlot.isSome = s.throws
  witness : p.witness.isSome = s.witness

theorem length_option_toList {o : Option α} {b : Bool} (h : o.isSome = b) :
    o.toList.length = if b then 1 else 0 := by
  subst h
  cases o <;> rfl

theorem length_witnessList {o : Option (α × α)} {b : Bool} (h : o.isSome = b) :
    (witnessList o).length = if b then 2 else 0 := by
  subst h
  cases o <;> rfl

theorem FitsFrame.length_toFrame {p : Parts α} (h : p.FitsFrame s) :
    s.errorAt + p.toFrame.length = s.resultsAt := by
  simp only [toFrame, List.length_append, length_option_toList h.error,
    length_option_toList h.indirect, h.params, h.bindings, length_witnessList h.witness,
    List.length_singleton, Lowered.resultsAt, Lowered.witnessAt, Lowered.receiverAt,
    Lowered.bindingsAt, Lowered.paramsAt, Lowered.indirectAt]
  omega

end Parts

end Dispatch
