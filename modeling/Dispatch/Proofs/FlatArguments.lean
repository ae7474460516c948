import Dispatch.Machine.Call
import Dispatch.Proofs.Packing
import Dispatch.Proofs.Types

/-!
# Flat argument lists

The native arguments of an ordinary function or a coroutine are one list, and every
part of it has a place that follows from the signature.  `Parts` names the parts,
for lists of words and for lists of variables alike.

## Main definitions

* `Parts`, `Parts.toList`, `Parts.Fits` — the parts of a list that fits a
  signature.
* `ArgValue.Fits`, `Shaped` — arguments with the shape that their parameters are
  passed in.
* `World.decodeOne`, `World.decodeAll` — decoding parameters that fill their words.

## Main results

* `Parts.exists_of_length` — every list of the right length has its parts.
* `World.decodeFlat_toList` — decoding a flat list is decoding its parameters.
-/

namespace Dispatch

open Attempt

/-! ### Parts -/

/-- The native words that a value passed this way takes. -/
def Passing.registerWords : Passing → Nat
  | direct schema => schema.nativeKinds.length
  | indirect _ => 1
  | address => 1

/-- The native words of several parameters. -/
def registerWords (carriers : List Carrier) : Nat :=
  (carriers.map fun c => c.passing.registerWords).sum

@[simp] theorem registerWords_cons (c : Carrier) (cs : List Carrier) :
    registerWords (c :: cs) = c.passing.registerWords + registerWords cs := by
  simp [registerWords]

/-- The parts of a flat argument list. -/
structure Parts (α : Type) where
  resumeBuffer : Option α
  indirectReturn : Option α
  params : List α
  bindings : List α
  receiver : α
  errorSlot : Option α
  /-- The self metadata and the witness table. -/
  witness : Option (α × α)

namespace Parts

variable {α β : Type} {s : Lowered}

/-- The two words of a witness. -/
def witnessList (witness : Option (α × α)) : List α :=
  witness.toList.flatMap fun w => [w.1, w.2]

/-- The list with these parts. -/
def toList (p : Parts α) : List α :=
  p.resumeBuffer.toList ++ p.indirectReturn.toList ++ p.params ++ p.bindings ++ [p.receiver]
    ++ p.errorSlot.toList ++ witnessList p.witness

/-- Apply a function to every element. -/
def map (f : α → β) (p : Parts α) : Parts β where
  resumeBuffer := p.resumeBuffer.map f
  indirectReturn := p.indirectReturn.map f
  params := p.params.map f
  bindings := p.bindings.map f
  receiver := f p.receiver
  errorSlot := p.errorSlot.map f
  witness := p.witness.map fun w => (f w.1, f w.2)

theorem toList_map (f : α → β) (p : Parts α) : (p.map f).toList = p.toList.map f := by
  obtain ⟨resume, indirect, params, bindings, receiver, error, witness⟩ := p
  cases resume <;> cases indirect <;> cases error <;> cases witness <;>
    simp [toList, map, witnessList]

theorem map_congr {f g : α → β} {p : Parts α} (h : ∀ a ∈ p.toList, f a = g a) :
    p.map f = p.map g := by
  simp only [map, Parts.mk.injEq]
  refine ⟨?_, ?_, ?_, ?_, ?_, ?_, ?_⟩
  · exact Option.map_congr fun a ha => h a (by simp [toList, Option.mem_def.mp ha])
  · exact Option.map_congr fun a ha => h a (by simp [toList, Option.mem_def.mp ha])
  · exact List.map_congr_left fun a ha => h a (by simp [toList, ha])
  · exact List.map_congr_left fun a ha => h a (by simp [toList, ha])
  · exact h _ (by simp [toList])
  · exact Option.map_congr fun a ha => h a (by simp [toList, Option.mem_def.mp ha])
  · refine Option.map_congr fun a ha => ?_
    rw [h a.1 (by simp [toList, witnessList, Option.mem_def.mp ha]),
      h a.2 (by simp [toList, witnessList, Option.mem_def.mp ha])]

/-- The same list with other parameters. -/
def withParams (p : Parts α) (params : List α) : Parts α := { p with params }

/-- The parts that the signature asks for are there. -/
structure Fits (s : Lowered) (p : Parts α) : Prop where
  resume : p.resumeBuffer.isSome = s.convention.isCoroutine
  indirect : p.indirectReturn.isSome = s.hasIndirectReturn
  params : p.params.length = registerWords s.carriers
  bindings : p.bindings.length = s.bindingCount
  error : p.errorSlot.isSome = s.throws
  witness : p.witness.isSome = s.witness

theorem Fits.map {p : Parts α} (h : p.Fits s) (f : α → β) : (p.map f).Fits s where
  resume := by simpa [Parts.map] using h.resume
  indirect := by simpa [Parts.map] using h.indirect
  params := by simpa [Parts.map] using h.params
  bindings := by simpa [Parts.map] using h.bindings
  error := by simpa [Parts.map] using h.error
  witness := by simpa [Parts.map] using h.witness

theorem length_carrierParams (carriers : List Carrier) (start : Nat) :
    ((carriers.zipIdx start).flatMap fun (c, index) => NativeParam.ofPassing index c.passing).length
      = registerWords carriers := by
  induction carriers generalizing start with
  | nil => rfl
  | cons c rest ih =>
    have hc : (NativeParam.ofPassing start c.passing).length = c.passing.registerWords := by
      cases hp : c.passing <;> simp [NativeParam.ofPassing, Passing.registerWords]
    rw [List.zipIdx_cons, List.flatMap_cons, List.length_append, hc, ih, registerWords_cons]

theorem length_flatParams (s : Lowered) :
    s.flatParams.length = (if s.convention.isCoroutine then 1 else 0)
      + (if s.hasIndirectReturn then 1 else 0) + registerWords s.carriers + s.bindingCount + 1
      + (if s.throws then 1 else 0) + (if s.witness then 2 else 0) := by
  simp only [Lowered.flatParams, List.length_append, length_carrierParams, List.length_map,
    List.length_range, List.length_singleton]
  cases s.convention.isCoroutine <;> cases s.hasIndirectReturn <;> cases s.throws <;>
    cases s.witness <;> rfl

theorem exists_toList_append (b : Bool) (l : List α) (h : (if b then 1 else 0) ≤ l.length) :
    ∃ (o : Option α) (rest : List α), o.isSome = b ∧ l = o.toList ++ rest := by
  cases b with
  | false => exact ⟨none, l, rfl, rfl⟩
  | true =>
    cases l with
    | nil => simp at h
    | cons a rest => exact ⟨some a, rest, rfl, rfl⟩

/-- Every list of the right length has its parts. -/
theorem exists_of_length (s : Lowered) (l : List α) (h : l.length = s.flatParams.length) :
    ∃ p : Parts α, p.Fits s ∧ p.toList = l := by
  rw [length_flatParams] at h
  obtain ⟨resume, l₁, hresume, rfl⟩ := exists_toList_append s.convention.isCoroutine l (by omega)
  have hr : resume.toList.length = if s.convention.isCoroutine then 1 else 0 := by
    rw [← hresume]
    cases resume <;> rfl
  rw [List.length_append, hr] at h
  obtain ⟨indirect, l₂, hindirect, rfl⟩ := exists_toList_append s.hasIndirectReturn l₁ (by omega)
  have hi : indirect.toList.length = if s.hasIndirectReturn then 1 else 0 := by
    rw [← hindirect]
    cases indirect <;> rfl
  rw [List.length_append, hi] at h
  obtain ⟨params, l₃, hparams, rfl⟩ : ∃ params l₃,
      params.length = registerWords s.carriers ∧ l₂ = params ++ l₃ :=
    ⟨l₂.take (registerWords s.carriers), l₂.drop (registerWords s.carriers),
      by rw [List.length_take]; omega, (List.take_append_drop _ _).symm⟩
  rw [List.length_append] at h
  obtain ⟨bindings, l₄, hbindings, rfl⟩ : ∃ bindings l₄,
      bindings.length = s.bindingCount ∧ l₃ = bindings ++ l₄ :=
    ⟨l₃.take s.bindingCount, l₃.drop s.bindingCount,
      by rw [List.length_take]; omega, (List.take_append_drop _ _).symm⟩
  rw [List.length_append] at h
  obtain ⟨receiver, l₅, rfl⟩ : ∃ receiver l₅, l₄ = receiver :: l₅ :=
    List.exists_cons_of_length_pos (by omega)
  rw [List.length_cons] at h
  obtain ⟨error, l₆, herror, rfl⟩ := exists_toList_append s.throws l₅ (by omega)
  have he : error.toList.length = if s.throws then 1 else 0 := by
    rw [← herror]
    cases error <;> rfl
  rw [List.length_append, he] at h
  obtain ⟨witness, hwitness, hw⟩ : ∃ witness : Option (α × α),
      witness.isSome = s.witness ∧ witnessList witness = l₆ := by
    cases hs : s.witness with
    | false =>
      simp only [hs, Bool.false_eq_true, if_false] at h
      exact ⟨none, rfl, (List.eq_nil_of_length_eq_zero (by omega)).symm⟩
    | true =>
      simp only [hs, if_true] at h
      obtain ⟨metadata, l₇, rfl⟩ := List.exists_cons_of_length_pos (l := l₆) (by omega)
      rw [List.length_cons] at h
      obtain ⟨table, l₈, rfl⟩ := List.exists_cons_of_length_pos (l := l₇) (by omega)
      rw [List.length_cons] at h
      rw [List.eq_nil_of_length_eq_zero (l := l₈) (by omega)]
      exact ⟨some (metadata, table), rfl, rfl⟩
  refine ⟨⟨resume, indirect, params, bindings, receiver, error, witness⟩,
    ⟨hresume, hindirect, hparams, hbindings, herror, hwitness⟩, ?_⟩
  simp [toList, hw]

theorem Fits.length_toList {p : Parts α} (h : p.Fits s) :
    p.toList.length = s.flatParams.length := by
  have hone : ∀ o : Option α, o.toList.length = if o.isSome then 1 else 0 := by
    intro o
    cases o <;> rfl
  have htwo : (witnessList p.witness).length = if s.witness then 2 else 0 := by
    rw [← h.witness]
    cases p.witness <;> rfl
  simp only [toList, List.length_append, hone, h.resume, h.indirect, h.params, h.bindings,
    h.error, htwo, List.length_singleton, length_flatParams]

theorem toList_append_inj {o o' : Option α} {l l' : List α} (h : o.isSome = o'.isSome)
    (hl : o.toList ++ l = o'.toList ++ l') : o = o' ∧ l = l' := by
  cases o with
  | none =>
    cases o' with
    | none => exact ⟨rfl, hl⟩
    | some b => cases h
  | some a =>
    cases o' with
    | none => cases h
    | some b =>
      simp only [Option.toList_some, List.singleton_append, List.cons.injEq] at hl
      exact ⟨by rw [hl.1], hl.2⟩

/-- A list has its parts in one way. -/
theorem toList_inj {p q : Parts α} (hp : p.Fits s) (hq : q.Fits s)
    (h : p.toList = q.toList) : p = q := by
  simp only [toList, List.append_assoc] at h
  obtain ⟨hresume, h⟩ := toList_append_inj (hp.resume.trans hq.resume.symm) h
  obtain ⟨hindirect, h⟩ := toList_append_inj (hp.indirect.trans hq.indirect.symm) h
  obtain ⟨hparams, h⟩ := List.append_inj h (hp.params.trans hq.params.symm)
  obtain ⟨hbindings, h⟩ := List.append_inj h (hp.bindings.trans hq.bindings.symm)
  obtain ⟨hreceiver, h⟩ := List.cons.inj h
  obtain ⟨herror, h⟩ := toList_append_inj (hp.error.trans hq.error.symm) h
  have hwitness : p.witness = q.witness := by
    have hsome := hp.witness.trans hq.witness.symm
    cases hpw : p.witness with
    | none =>
      cases hqw : q.witness with
      | none => rfl
      | some w => rw [hpw, hqw] at hsome; cases hsome
    | some w =>
      cases hqw : q.witness with
      | none => rw [hpw, hqw] at hsome; cases hsome
      | some w' =>
        rw [hpw, hqw] at h
        simp only [witnessList, Option.toList_some, List.flatMap_cons, List.flatMap_nil,
          List.append_nil, List.cons.injEq, and_true] at h
        rw [Prod.ext h.1 h.2]
  obtain ⟨resume, indirect, params, bindings, receiver, error, witness⟩ := p
  simp only at hresume hindirect hparams hbindings hreceiver herror hwitness
  rw [hresume, hindirect, hparams, hbindings, hreceiver, herror, hwitness]

end Parts

/-! ### Shapes of arguments -/

/-- The argument has the shape that a parameter is passed in: as many components as
its type has, or an address. -/
def ArgValue.Fits : ArgValue → Passing → Prop
  | value words, .direct schema => words.length = schema.components.length
  | value words, .indirect schema => words.length = schema.components.length
  | address _, .address => True
  | _, _ => False

instance (arg : ArgValue) (passing : Passing) : Decidable (arg.Fits passing) := by
  unfold ArgValue.Fits
  cases arg <;> cases passing <;> infer_instance

/-- One argument for each parameter, each with the right shape. -/
def Shaped : List Carrier → List ArgValue → Prop
  | [], [] => True
  | c :: cs, arg :: args => arg.Fits c.passing ∧ Shaped cs args
  | _, _ => False

instance decidableShaped : ∀ (cs : List Carrier) (args : List ArgValue), Decidable (Shaped cs args)
  | [], [] => isTrue trivial
  | [], _ :: _ => isFalse id
  | _ :: _, [] => isFalse id
  | c :: cs, arg :: args =>
    match inferInstanceAs (Decidable (arg.Fits c.passing)), decidableShaped cs args with
    | isTrue h, isTrue h' => isTrue ⟨h, h'⟩
    | isFalse h, _ => isFalse fun h' => h h'.1
    | _, isFalse h => isFalse fun h' => h h'.2

theorem Shaped.length_eq {cs : List Carrier} {args : List ArgValue} (h : Shaped cs args) :
    args.length = cs.length := by
  induction cs generalizing args with
  | nil =>
    cases args with
    | nil => rfl
    | cons a args => exact h.elim
  | cons c cs ih =>
    cases args with
    | nil => exact h.elim
    | cons a args => simp [ih h.2]

/-! ### Decoding -/

/-- What the parts of a flat list decode to, apart from the parameters. -/
def Parts.incoming (p : Parts Word) (args : List ArgValue) : Incoming where
  invocation := { receiver := p.receiver, args, bindings := p.bindings, witness := p.witness }
  errorSlot := p.errorSlot
  indirectReturn := p.indirectReturn

namespace World

/-- Decode a parameter from its own native words. -/
def decodeOne (index : Nat) (native : List Word) : Passing → Run ArgValue
  | .direct schema => do return .value (← schema.decode native index)
  | .indirect schema => do
    return .value (← withMemory (Memory.takeWords (native.headD 0) schema.components.length))
  | .address => return .address (native.headD 0)

/-- Decode parameters from their own native words; the first has this index. -/
def decodeAll (index : Nat) (native : List Word) : List Carrier → Run (List ArgValue)
  | [] => return []
  | c :: rest => do
    let first ← decodeOne index (native.take c.passing.registerWords) c.passing
    let others ← decodeAll (index + 1) (native.drop c.passing.registerWords) rest
    return first :: others

variable {index : Nat} {native tail : List Word} {passing : Passing} {carriers : List Carrier}

theorem decodeParam_append (h : native.length = passing.registerWords) :
    decodeParam index (native ++ tail) passing
      = (fun arg => (arg, tail)) <$> decodeOne index native passing := by
  cases passing with
  | direct schema =>
    have h' : native.length = schema.nativeKinds.length := h
    simp only [decodeParam, decodeOne, ← h', List.take_left, List.drop_left, map_bind, map_pure]
  | indirect schema =>
    obtain ⟨a, rfl⟩ := List.length_eq_one_iff.mp h
    simp only [decodeParam, decodeOne, List.cons_append, List.nil_append, List.headD_cons,
      List.tail_cons, map_bind, map_pure]
  | address =>
    obtain ⟨a, rfl⟩ := List.length_eq_one_iff.mp h
    rfl

/-- Decoding takes the words of the parameters and leaves the rest. -/
theorem decodeParams_append (h : native.length = registerWords carriers) :
    decodeParams index (native ++ tail) carriers
      = (fun args => (args, tail)) <$> decodeAll index native carriers := by
  induction carriers generalizing index native with
  | nil =>
    rw [List.eq_nil_of_length_eq_zero h]
    rfl
  | cons c cs ih =>
    rw [registerWords_cons] at h
    have hfirst : (native.take c.passing.registerWords).length = c.passing.registerWords := by
      rw [List.length_take]
      omega
    have hrest : (native.drop c.passing.registerWords).length = registerWords cs := by
      rw [List.length_drop]
      omega
    have hsplit : native ++ tail = native.take c.passing.registerWords
        ++ (native.drop c.passing.registerWords ++ tail) := by
      rw [← List.append_assoc, List.take_append_drop]
    rw [decodeParams, hsplit, decodeParam_append hfirst, decodeAll, bind_map_left, map_bind]
    congr 1
    funext first
    simp only [ih hrest, bind_map_left, map_bind, map_pure]

theorem popIf_toList {present : Bool} {o : Option Word} (h : o.isSome = present)
    (rest : List Word) : popIf present (o.toList ++ rest) = (o, rest) := by
  subst h
  cases o <;> rfl

/-- Decoding a flat list is decoding its parameters. -/
theorem decodeFlat_toList {s : Lowered} {p : Parts Word} (h : p.Fits s) :
    decodeFlat s p.toList
      = (fun args => (p.resumeBuffer, p.incoming args)) <$> decodeAll 0 p.params s.carriers := by
  have hlist : p.toList = p.resumeBuffer.toList ++ (p.indirectReturn.toList ++ (p.params
      ++ (p.bindings ++ (p.receiver :: (p.errorSlot.toList ++ Parts.witnessList p.witness))))) := by
    simp [Parts.toList]
  have hwitness : (if s.witness = true then
        some ((Parts.witnessList p.witness).headD 0,
          (Parts.witnessList p.witness).tail.headD 0) else none) = p.witness := by
    rw [← h.witness]
    cases p.witness <;> rfl
  simp only [decodeFlat, hlist, popIf_toList h.resume, popIf_toList h.indirect,
    decodeParams_append h.params]
  rw [bind_map_left]
  simp only [← h.bindings, List.take_left, List.drop_left, List.headD_cons, List.tail_cons,
    popIf_toList h.error, hwitness, bind_pure_comp]
  rfl

end World

end Dispatch
