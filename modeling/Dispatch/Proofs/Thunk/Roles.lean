import Mathlib.Data.List.Forall2
import Dispatch.Thunk.Body
import Dispatch.Proofs.Code
import Dispatch.Proofs.FlatArguments

/-!
# Arguments by role

A signature says what each native parameter carries.  A call goes through these roles in
their order and looks up what stands for each: something that the thunk recovered from
its own parameters, or a native word of a parameter, of which all are made when the first is
asked for.  Both ends follow one signature, so everything that a role asks for is there:
the arguments come out part by part, in the order of `Parts`.

## Main definitions

* `Arguments.Recovers` — what a thunk recovers from its native parameters.
* `Thunk.flatArguments` — the native arguments, parameter by parameter.
* `Thunk.function` — the whole function, the entry and everything after it in one.

## Main results

* `Arguments.Recovers.split` — the stream is cut up as it was put together.
* `Thunk.roleArguments_eq`, `Thunk.nativeCall_eq` — going through the roles is going through
  the parts.
* `Thunk.frameArguments_eq` — every value of a call with a frame has its field.
* `Thunk.received_emitReturn` — the return finds the call to have ended as it expects.
* `Thunk.run_enter` — the entry settles the convention, and the rest is made for it.
-/

namespace Dispatch

/-! ### Explosions -/

namespace Explosion

variable {e : Explosion} {vs rest : List Var} {v : Var}

theorem claim_ok (he : e.pending = vs ++ rest) :
    ∃ e', e.claim vs.length = .ok (vs, e') ∧ e'.pending = rest := by
  refine ⟨⟨e.claimed ++ vs, rest⟩, ?_, rfl⟩
  rw [claim, if_pos (by simp [size, he]), he, List.take_left, List.drop_left]

theorem claimNext_ok (he : e.pending = v :: rest) :
    ∃ e', e.claimNext = .ok (v, e') ∧ e'.pending = rest :=
  ⟨⟨e.claimed ++ [v], rest⟩, by rw [claimNext, he], rfl⟩

theorem takeLast_ok (he : e.pending = rest ++ [v]) :
    ∃ e', e.takeLast = .ok (v, e') ∧ e'.pending = rest :=
  ⟨{ e with pending := rest }, by simp [takeLast, he], rfl⟩

theorem claimNextIf_ok {o : Option Var} {present : Bool} (ho : o.isSome = present)
    (he : e.pending = o.toList ++ rest) :
    ∃ e', e.claimNextIf present = .ok (o, e') ∧ e'.pending = rest := by
  subst ho
  cases o with
  | none => exact ⟨e, rfl, he⟩
  | some v =>
    obtain ⟨e', h, hp⟩ := claimNext_ok (v := v) he
    exact ⟨e', by simp only [claimNextIf, Option.isSome_some, if_true, h]; rfl, hp⟩

theorem takeLastIf_ok {o : Option Var} {present : Bool} (ho : o.isSome = present)
    (he : e.pending = rest ++ o.toList) :
    ∃ e', e.takeLastIf present = .ok (o, e') ∧ e'.pending = rest := by
  subst ho
  cases o with
  | none => exact ⟨e, rfl, by simpa using he⟩
  | some v =>
    obtain ⟨e', h, hp⟩ := takeLast_ok (v := v) he
    exact ⟨e', by simp only [takeLastIf, Option.isSome_some, if_true, h]; rfl, hp⟩

theorem takeWitnessIf_ok {o : Option (Var × Var)} {present : Bool} (ho : o.isSome = present)
    (he : e.pending = rest ++ Parts.witnessList o) :
    ∃ e', e.takeWitnessIf present = .ok (o.map fun w => ⟨w.1, w.2⟩, e') ∧ e'.pending = rest := by
  subst ho
  cases o with
  | none => exact ⟨e, rfl, by simpa [Parts.witnessList] using he⟩
  | some w =>
    have hpending : e.pending = rest ++ [w.1] ++ [w.2] := by simpa [Parts.witnessList] using he
    obtain ⟨e₁, h₁, hp₁⟩ := takeLast_ok hpending
    obtain ⟨e₂, h₂, hp₂⟩ := takeLast_ok hp₁
    refine ⟨e₂, ?_, hp₂⟩
    simp only [takeWitnessIf, Option.isSome_some, if_true, h₁, Attempt.ok_bind, h₂]
    rfl

theorem claimEach_ok {vss : List (List Var)} (he : e.pending = vss.flatten ++ rest) :
    ∃ e', e.claimEach (vss.map List.length) = .ok (vss, e') ∧ e'.pending = rest := by
  induction vss generalizing e with
  | nil => exact ⟨e, rfl, by simpa using he⟩
  | cons vs vss ih =>
    have hpending : e.pending = vs ++ (vss.flatten ++ rest) := by simpa using he
    obtain ⟨e₁, h₁, hp₁⟩ := claim_ok hpending
    obtain ⟨e₂, h₂, hp₂⟩ := ih hp₁
    exact ⟨e₂, by simp only [List.map_cons, claimEach, h₁, Attempt.ok_bind, h₂]; rfl, hp₂⟩

end Explosion

/-! ### Asynchronous signatures -/

theorem Convention.eq_async {c : Convention} (h : c.isAsync = true) : c = .async := by
  cases c with
  | async => rfl
  | ordinary => cases h
  | yieldOnce => cases h

/-- An asynchronous function takes its context only. -/
theorem Lowered.paramKinds_async {s : Lowered} (hs : s.convention = .async) :
    s.paramKinds = [.ptr] := by
  rw [paramKinds, params, hs]
  rfl

/-! ### Recovered arguments -/

/-- What recovering flat arguments gives: the parts of the list, with the variables of
each parameter. -/
structure Arguments.Recovers (args : Arguments) (s : Lowered) (p : Parts Var)
    (uss : List (List Var)) : Prop where
  receiver : args.receiver = p.receiver
  witness : args.witness = p.witness.map fun w => ⟨w.1, w.2⟩
  indirectReturn : args.indirectReturn = p.indirectReturn
  errorSlot : args.errorSlot = p.errorSlot
  errorDestination : args.errorDestination = p.errorSlot
  resumeBuffer : args.resumeBuffer = p.resumeBuffer
  stream : args.stream.pending = uss.flatten ++ p.bindings
  widths : uss.map List.length = s.carriers.map fun c => c.passing.width

/-- The stream is cut up into the variables that it was put together from. -/
theorem Arguments.Recovers.split {args : Arguments} {s : Lowered} {p : Parts Var}
    {uss : List (List Var)} (h : args.Recovers s p uss)
    (hbindings : p.bindings.length = s.bindingCount) : args.split s = .ok (uss, p.bindings) := by
  obtain ⟨e, hclaim, he⟩ := Explosion.claimEach_ok h.stream
  have hsize : e.size = s.bindingCount := (congrArg List.length he).trans hbindings
  rw [Arguments.split, ← h.widths, hclaim, Attempt.ok_bind]
  simp only [hsize, if_true, he]
  rfl

/-- Where no witness was recovered, the signature has none. -/
theorem Arguments.Recovers.witness_eq_false {args : Arguments} {s : Lowered} {p : Parts Var}
    {uss : List (List Var)} (h : args.Recovers s p uss) (hp : p.witness.isSome = s.witness)
    (hw : args.witness = none) : s.witness = false := by
  rw [h.witness, Option.map_eq_none_iff] at hw
  rw [← hp, hw]
  rfl

/-- At first errors have no destination. -/
theorem Arguments.installDestination_none (slot : Option Var) :
    Arguments.installDestination none slot = .ok slot := by
  cases slot <;> rfl

/-! ### Steps -/

theorem Attempt.element_eq {α : Type} {l : List α} {index : Nat} {a : α} (h : l[index]? = some a) :
    Attempt.element l index = .ok a := by
  rw [element, h, require]

theorem Attempt.mem_of_element {α : Type} {l : List α} {index : Nat} {a : α}
    (h : Attempt.element l index = .ok a) : a ∈ l := by
  rw [element] at h
  cases hget : l[index]? with
  | none =>
    rw [hget] at h
    cases h
  | some a' =>
    rw [hget] at h
    cases h
    exact List.mem_of_getElem? hget

theorem Step.liftM_ok {σ α : Type} (a : α) : (liftM (.ok a : Attempt α) : Step σ α) = pure a := rfl

/-- What comes after a step matters only where the step succeeds. -/
theorem Step.bind_congr_ok {σ α β : Type} {x : Step σ α} {f g : α → Step σ β}
    (h : ∀ a s s', x s = .ok a s' → f a s' = g a s') : x >>= f = x >>= g := by
  funext s
  cases hx : x s with
  | ok a s' => rw [Step.bind_of_ok hx, Step.bind_of_ok hx, h a s s' hx]
  | error fault s' => rw [Step.bind_of_error hx, Step.bind_of_error hx]

theorem Builder.length_of_defineAll {kinds : List Scalar} {instr : List Var → Instr}
    {vs : List Var} {b b' : Builder} (h : Builder.defineAll kinds instr b = .ok vs b') :
    vs.length = kinds.length := by
  obtain ⟨dsts, b₁, hfresh, h⟩ := Step.bind_eq_ok.mp h
  obtain ⟨-, b₂, -, h⟩ := Step.bind_eq_ok.mp h
  cases h
  rw [freshAll, ← freshAll, run_freshAll] at hfresh
  cases hfresh
  rw [List.length_range']

/-! ### Roles -/

namespace Thunk

/-- The native arguments for one parameter. -/
def flatArgument (c : Carrier) (values : List Var) : Build (List Var) :=
  match c.passing with
  | .direct schema =>
    if schema.nativeKinds.isEmpty then return []
    else Builder.toNative c.type schema.nativeKinds values
  | .indirect _ => do return [← spill values]
  | .address => return values

/-- The native arguments for all parameters. -/
def flatArguments : List (Carrier × List Var) → Build (List Var)
  | [] => return []
  | (c, values) :: rest => do
    let first ← flatArgument c values
    let others ← flatArguments rest
    return first ++ others

variable {s : Lowered} {args : Arguments} {params : List (List Var)} {bindings : List Var}
  {mapped : List (Option (List Var))} {roles rest : List Role} {vs : List Var}
  {others : Build (List Var)}

/-- The argument for a role is there, whatever words were made. -/
def Finds (s : Lowered) (args : Arguments) (params : List (List Var)) (bindings : List Var)
    (mapped : List (Option (List Var))) (role : Role) (v : Var) : Prop :=
  roleArgument s args params bindings mapped role = pure (v, mapped)

/-- Arguments that are there take no code. -/
theorem roleArguments_append (h : List.Forall₂ (Finds s args params bindings mapped) roles vs) :
    roleArguments s args params bindings mapped (roles ++ rest) = do
      let others ← roleArguments s args params bindings mapped rest
      return vs ++ others := by
  induction h with
  | nil => exact (bind_pure _).symm
  | cons hone _ ih =>
    rw [List.cons_append, roleArguments, hone]
    simp only [pure_bind, ih, bind_assoc, List.cons_append]

theorem roleArguments_of_finds
    (h : List.Forall₂ (Finds s args params bindings mapped) roles vs) :
    roleArguments s args params bindings mapped roles = pure vs := by
  rw [← List.append_nil roles, roleArguments_append h, roleArguments, pure_bind, List.append_nil]

/-! ### Words of a parameter -/

/-- The roles of the native parameters for one declared parameter. -/
def paramRoles (index : Nat) (passing : Passing) : List Role :=
  (NativeParam.ofPassing index passing).map NativeParam.role

theorem paramRoles_direct (index : Nat) (schema : Schema) :
    paramRoles index (.direct schema) =
      (List.range schema.nativeKinds.length).map (Role.param index) := by
  rw [paramRoles, NativeParam.ofPassing, List.map_map, List.range_eq_range',
    ← List.zipIdx_map_snd 0 schema.nativeKinds, List.map_map]
  rfl

/-- Words that were made are read one after the other. -/
theorem finds_words {index : Nat} {words : List Var} (h : mapped[index]? = some (some words)) :
    List.Forall₂ (Finds s args params bindings mapped)
      ((List.range words.length).map (Role.param index)) words := by
  rw [List.forall₂_map_left_iff, List.forall₂_iff_get]
  refine ⟨List.length_range, fun i hi hi' => ?_⟩
  rw [List.get_eq_getElem, List.getElem_range, Finds, roleArgument, mapParam]
  simp only [Attempt.element_eq h, Attempt.element_eq (List.getElem?_eq_getElem hi'),
    Attempt.require, Step.liftM_ok, pure_bind]
  rfl

/-- The words of a parameter are all made when the first is asked for. -/
theorem roleArguments_direct {index : Nat} {c : Carrier} {schema : Schema} {us : List Var}
    (hc : s.carriers[index]? = some c) (hdirect : c.passing = .direct schema)
    (hus : params[index]? = some us) (hmapped : mapped[index]? = some none)
    (hwords : schema.nativeKinds.isEmpty = false) :
    roleArguments s args params bindings mapped (paramRoles index c.passing ++ rest) = do
      let vs ← Builder.toNative c.type schema.nativeKinds us
      let others ← roleArguments s args params bindings (mapped.set index (some vs)) rest
      return vs ++ others := by
  have hlt : index < mapped.length := (List.getElem?_eq_some_iff.mp hmapped).1
  have hset : ∀ vs : List Var, (mapped.set index (some vs))[index]? = some (some vs) :=
    fun vs => by rw [List.getElem?_set_self hlt]
  -- asking for the first word makes all of them, and asking again makes none
  have hfirst : ∀ roles, roleArguments s args params bindings mapped (.param index 0 :: roles) =
      Builder.toNative c.type schema.nativeKinds us >>= fun vs =>
        roleArguments s args params bindings (mapped.set index (some vs))
          (.param index 0 :: roles) := by
    intro roles
    simp only [roleArguments, roleArgument, mapParam, Attempt.element_eq hmapped,
      Attempt.element_eq hc, Attempt.element_eq hus, hdirect, Step.liftM_ok, pure_bind, bind_assoc,
      Attempt.element_eq (hset _)]
  obtain ⟨n, hn⟩ : ∃ n, schema.nativeKinds.length = n + 1 :=
    Nat.exists_eq_succ_of_ne_zero (by rwa [Ne, List.length_eq_zero_iff, ← List.isEmpty_iff,
      Bool.not_eq_true])
  have hroles : paramRoles index c.passing =
      .param index 0 :: (List.range n).map (Role.param index ∘ Nat.succ) := by
    rw [hdirect, paramRoles_direct, hn, List.range_succ_eq_map, List.map_cons, List.map_map]
  rw [hroles, List.cons_append, hfirst]
  refine Step.bind_congr_ok fun vs b b' hvs => ?_
  have hlength := Builder.length_of_defineAll hvs
  rw [← List.cons_append, ← hroles, hdirect, paramRoles_direct, ← hlength]
  exact congrFun (roleArguments_append (finds_words (hset vs))) b'

/-- What stands for one parameter, whatever comes after it. -/
theorem roleArguments_param {index : Nat} {c : Carrier} {us : List Var}
    (hc : s.carriers[index]? = some c) (hus : params[index]? = some us)
    (hwidth : us.length = c.passing.width) (hmapped : mapped[index]? = some none)
    (hrest : ∀ vs, roleArguments s args params bindings (mapped.set index vs) rest = others) :
    roleArguments s args params bindings mapped (paramRoles index c.passing ++ rest) = do
      let vs ← flatArgument c us
      let ws ← others
      return vs ++ ws := by
  have hsame : roleArguments s args params bindings mapped rest = others := by
    obtain ⟨hlt, hnone⟩ := List.getElem?_eq_some_iff.mp hmapped
    rw [← hrest none, ← hnone, List.set_getElem_self]
  cases hp : c.passing with
  | direct schema =>
    cases hwords : schema.nativeKinds.isEmpty with
    | true =>
      have hnone : paramRoles index (.direct schema) = [] := by
        rw [paramRoles_direct, List.isEmpty_iff.mp hwords]
        rfl
      simp only [flatArgument, hp, hwords, if_true, hnone, List.nil_append, pure_bind, hsame,
        bind_pure]
    | false =>
      rw [← hp, roleArguments_direct hc hp hus hmapped hwords]
      simp only [flatArgument, hp, hwords, Bool.false_eq_true, if_false, hrest]
  | indirect schema =>
    simp only [paramRoles, NativeParam.ofPassing, NativeParam.ptr, List.map_cons, List.map_nil,
      List.cons_append, List.nil_append, roleArguments, roleArgument, Attempt.element_eq hus,
      Step.liftM_ok, pure_bind, bind_assoc, hsame, flatArgument, hp]
  | address =>
    rw [hp] at hwidth
    obtain ⟨v, rfl⟩ := List.length_eq_one_iff.mp hwidth
    simp only [paramRoles, NativeParam.ofPassing, NativeParam.ptr, List.map_cons, List.map_nil,
      List.cons_append, List.nil_append, roleArguments, roleArgument, Attempt.element_eq hus,
      Attempt.element_eq (List.getElem?_cons_zero), Step.liftM_ok, pure_bind, hsame, flatArgument, hp]

/-- What stands for all parameters from one index on.  No word of them was made yet, and what
comes after them asks for none. -/
theorem roleArguments_params (hrest : ∀ mapped,
      roleArguments s args params bindings mapped rest = others) (carriers : List Carrier) :
    ∀ (uss : List (List Var)) (start : Nat) (mapped : List (Option (List Var))),
      s.carriers.drop start = carriers → params.drop start = uss →
      uss.map List.length = carriers.map (fun c => c.passing.width) →
      (∀ i, start ≤ i → i < start + carriers.length → mapped[i]? = some none) →
      roleArguments s args params bindings mapped
          ((carriers.zipIdx start).flatMap (fun (c, index) => paramRoles index c.passing) ++ rest) = do
        let vs ← flatArguments (carriers.zip uss)
        let ws ← others
        return vs ++ ws := by
  induction carriers with
  | nil =>
    intro uss start mapped _ _ _ _
    rw [List.zip_nil_left, flatArguments, pure_bind]
    exact (hrest mapped).trans (bind_pure _).symm
  | cons c cs ih =>
    intro uss start mapped hcarriers huss hwidths hmapped
    cases uss with
    | nil => cases hwidths
    | cons us uss =>
      rw [List.map_cons, List.map_cons, List.cons.injEq] at hwidths
      have hc : s.carriers[start]? = some c := by
        rw [← Nat.add_zero start, ← List.getElem?_drop, hcarriers]
        rfl
      have hus : params[start]? = some us := by
        rw [← Nat.add_zero start, ← List.getElem?_drop, huss]
        rfl
      rw [List.zipIdx_cons, List.flatMap_cons, List.append_assoc, List.zip_cons_cons, flatArguments,
        roleArguments_param hc hus hwidths.1 (hmapped start (Nat.le_refl _) (by simp)) fun vs =>
          ih uss (start + 1) (mapped.set start vs) ?_ ?_ hwidths.2 fun i hi hlt => ?_]
      · simp only [bind_assoc, pure_bind, List.append_assoc]
      · rw [← List.drop_drop, hcarriers, List.drop_one, List.tail_cons]
      · rw [← List.drop_drop, huss, List.drop_one, List.tail_cons]
      · rw [List.getElem?_set_ne (by omega)]
        exact hmapped i (by omega) (by rw [List.length_cons]; omega)

/-! ### All roles -/

/-- A role that is there if something is stands for this. -/
theorem finds_optional {o : Option Var} {present : Bool} {role : Role} (ho : o.isSome = present)
    (h : ∀ v, o = some v → Finds s args params bindings mapped role v) :
    List.Forall₂ (Finds s args params bindings mapped) (if present then [role] else [])
      o.toList := by
  subst ho
  cases o with
  | none => exact .nil
  | some v => exact .cons (h v rfl) .nil

variable {p : Parts Var} {uss : List (List Var)}

/-- The roles before the parameters. -/
theorem finds_front (hargs : args.Recovers s p uss) (hp : p.Fits s) :
    List.Forall₂ (Finds s args params bindings mapped)
      ((if s.convention.isCoroutine then [.resumeBuffer] else [])
        ++ (if s.hasIndirectReturn then [.indirectReturn] else []))
      (p.resumeBuffer.toList ++ p.indirectReturn.toList) := by
  refine List.rel_append (finds_optional hp.resume fun v hv => ?_)
    (finds_optional hp.indirect fun v hv => ?_)
  · rw [Finds, roleArgument, hargs.resumeBuffer, hv]
    rfl
  · rw [Finds, roleArgument, hargs.indirectReturn, hv]
    rfl

theorem finds_bindings (n : Nat) (h : n = bindings.length) :
    List.Forall₂ (Finds s args params bindings mapped)
      ((List.range n).map Role.genericBinding) bindings := by
  rw [List.forall₂_map_left_iff, List.forall₂_iff_get]
  refine ⟨List.length_range.trans h, fun i hi hi' => ?_⟩
  rw [List.get_eq_getElem, List.getElem_range, Finds, roleArgument]
  simp only [Attempt.element_eq (List.getElem?_eq_getElem hi'), Step.liftM_ok, pure_bind]
  rfl

/-- The roles after the parameters. -/
theorem finds_back (hargs : args.Recovers s p uss) (hp : p.Fits s) :
    List.Forall₂ (Finds s args params p.bindings mapped)
      ((List.range s.bindingCount).map Role.genericBinding ++ [.selfValue]
        ++ (if s.throws then [.errorSlot] else [])
        ++ (if s.witness then [.selfMetadata, .selfWitnessTable] else []))
      (p.bindings ++ [p.receiver] ++ p.errorSlot.toList ++ Parts.witnessList p.witness) := by
  refine List.rel_append (List.rel_append (List.rel_append (finds_bindings _ hp.bindings.symm)
    (.cons ?_ .nil)) (finds_optional hp.error fun v hv => ?_)) ?_
  · rw [Finds, roleArgument, hargs.receiver]
  · rw [Finds, roleArgument, hargs.errorDestination, hv]
    rfl
  · have hw := hargs.witness
    rw [← hp.witness]
    cases hwitness : p.witness with
    | none => exact .nil
    | some w =>
      rw [hwitness] at hw
      refine .cons ?_ (.cons ?_ .nil) <;> rw [Finds, roleArgument, hw] <;> rfl

/-- Going through the roles of a signature is going through its parts. -/
theorem roleArguments_eq (hargs : args.Recovers s p uss) (hp : p.Fits s) :
    roleArguments s args uss p.bindings (List.replicate uss.length none)
        (s.flatParams.map NativeParam.role) = do
      let vs ← flatArguments (s.carriers.zip uss)
      return (p.withParams vs).toList := by
  have hroles : s.flatParams.map NativeParam.role =
      ((if s.convention.isCoroutine then [.resumeBuffer] else [])
        ++ (if s.hasIndirectReturn then [.indirectReturn] else []))
      ++ (s.carriers.zipIdx.flatMap (fun (c, index) => paramRoles index c.passing)
      ++ ((List.range s.bindingCount).map Role.genericBinding ++ [.selfValue]
        ++ (if s.throws then [.errorSlot] else [])
        ++ (if s.witness then [.selfMetadata, .selfWitnessTable] else []))) := by
    simp only [Lowered.flatParams, List.map_append, List.map_flatMap, List.map_map, List.map_cons,
      List.map_nil, apply_ite (List.map NativeParam.role), List.append_assoc, NativeParam.ptr]
    rfl
  have hlength : uss.length = s.carriers.length := by
    simpa using congrArg List.length hargs.widths
  rw [hroles, roleArguments_append (finds_front hargs hp),
    roleArguments_params (fun _ => roleArguments_of_finds (finds_back hargs hp)) s.carriers uss 0 _
      rfl rfl hargs.widths fun i _ hi => ?_]
  · simp only [bind_assoc, pure_bind, Parts.toList, Parts.withParams, List.append_assoc]
  · rw [List.getElem?_replicate, if_pos (by omega)]

/-- A call with native arguments, part by part. -/
theorem nativeCall_eq (hs : s.convention.isAsync = false) (hargs : args.Recovers s p uss)
    (hp : p.Fits s) (function : Var) :
    nativeCall s function args = flatArguments (s.carriers.zip uss) >>= fun vs =>
      Builder.call function s.convention (p.withParams vs).toList s.results := by
  have hparams : s.params = s.flatParams := by rw [Lowered.params, if_neg (by rw [hs]; decide)]
  rw [nativeCall, hargs.split hp.bindings, Step.liftM_ok, pure_bind, hparams]
  simp only [roleArguments_eq hargs hp, bind_assoc, pure_bind]

/-! ### Fields of a frame -/

/-- Store the arguments in their fields, parameter by parameter. -/
def storeArguments (frame : Var) : List (FrameField × Carrier × List Var) → Build Unit
  | [] => return ()
  | (field, c, values) :: rest => do
    frameArgument frame field c values
    storeArguments frame rest

/-- Every field of a frame with a field for each parameter gets its argument. -/
theorem frameArguments_eq (frame : Var) (carriers : List Carrier) :
    ∀ (uss : List (List Var)) (fields : List FrameField) (start : Nat),
      s.carriers.drop start = carriers → params.drop start = uss →
      uss.length = carriers.length → fields.length = carriers.length →
      frameArguments s params frame start fields =
        storeArguments frame (fields.zip (carriers.zip uss)) := by
  induction carriers with
  | nil =>
    intro uss fields start _ _ _ hfields
    rw [List.eq_nil_of_length_eq_zero hfields]
    rfl
  | cons c cs ih =>
    intro uss fields start hcarriers huss hlength hfields
    obtain ⟨us, uss, rfl⟩ := List.exists_cons_of_length_eq_add_one hlength
    obtain ⟨field, fields, rfl⟩ := List.exists_cons_of_length_eq_add_one hfields
    have hc : s.carriers[start]? = some c := by
      rw [← Nat.add_zero start, ← List.getElem?_drop, hcarriers]
      rfl
    have hus : params[start]? = some us := by
      rw [← Nat.add_zero start, ← List.getElem?_drop, huss]
      rfl
    rw [frameArguments, Attempt.element_eq hus, Attempt.element_eq hc, List.zip_cons_cons,
      List.zip_cons_cons, storeArguments,
      ← ih uss fields (start + 1) (by rw [← List.drop_drop, hcarriers]; rfl)
        (by rw [← List.drop_drop, huss]; rfl) (by simpa using hlength) (by simpa using hfields)]
    simp only [Step.liftM_ok, pure_bind]

/-! ### Ordinary functions and coroutines -/

/-- How a thunk of an ordinary function or a coroutine goes. -/
def flatPlan (s : Lowered) : ConventionPlan :=
  if s.convention.isCoroutine then .coroutine else .ordinary

/-- Return the native results of a call: a result passed in registers is taken apart and
put together again, and what a coroutine hands back is returned as it is. -/
def handBack (s : Lowered) (results : List Var) : Build Unit :=
  if s.convention.isCoroutine then Builder.terminate (.ret results)
  else match s.result.passing with
    | .direct schema =>
      if schema.components.isEmpty then Builder.terminate (.ret [])
      else do
        let components ← Builder.fromNative s.result.type schema.components results
        let native ← Builder.toNative s.result.type schema.nativeKinds components
        Builder.terminate (.ret native)
    | .indirect _ => Builder.terminate (.ret [])
    | .address => Builder.terminate (.ret [])

/-- What is received from a call with the signature of the thunk can be returned. -/
theorem received_emitReturn (s : Lowered) (results : List Var) :
    received s results >>= emitReturn s (flatPlan s) = handBack s results := by
  unfold received flatPlan handBack
  cases hco : s.convention.isCoroutine with
  | true => rfl
  | false =>
    simp only [Bool.false_eq_true, if_false]
    have hind : s.hasIndirectReturn = s.result.passing.byAddress := rfl
    cases hp : s.result.passing with
    | indirect schema =>
      rw [hp] at hind
      simp only [hind, Passing.byAddress, if_true, pure_bind, emitReturn]
    | address =>
      rw [hp] at hind
      simp only [hind, Passing.byAddress, if_true, pure_bind, emitReturn]
    | direct schema =>
      rw [hp] at hind
      simp only [hind, Passing.byAddress, Bool.false_eq_true, if_false]
      cases hempty : schema.components.isEmpty with
      | true => rfl
      | false =>
        simp only [Bool.false_eq_true, if_false, bind_assoc, pure_bind]
        refine Step.bind_congr_ok fun components b b' hcomponents => ?_
        have hsize : (Explosion.ofList components).size ≠ 0 := by
          rw [Explosion.size, Explosion.ofList, Builder.length_of_defineAll hcomponents]
          intro hzero
          rw [List.eq_nil_of_length_eq_zero hzero] at hempty
          cases hempty
        simp only [emitReturn, if_neg hsize, hp]
        rfl

/-- The code of an ordinary thunk or a coroutine after the entry. -/
theorem forward_flat (hframe : s.frame = none) (p : Pool) (target : Attempt Target) (m : Method)
    (params : Explosion) :
    forward p target { method := m, own := s, forwarded := s } (flatPlan s) params = (do
      let args ← Arguments.ofFlat s none params
      let function ← (← target).resolve p m args
      let results ← nativeCall s function args
      handBack s results) := by
  have hprepare : prepare s (flatPlan s) params = Arguments.ofFlat s none params := by
    rw [flatPlan]
    split <;> rfl
  simp only [forward, forwardCall, hframe, hprepare, flatCall, bind_assoc, received_emitReturn]

/-! ### The whole function -/

/-- Everything that a thunk consists of. -/
def emit (p : Pool) (target : Attempt Target) (plan : ThunkPlan) : Build Unit := do
  let (convention, params) ← enter plan.own
  forward p target plan convention params

/-- The dispatch thunk with a symbol. -/
def function (p : Pool) (target : Attempt Target) (plan : ThunkPlan) (symbol : String) :
    Attempt Function :=
  match emit p target plan (Builder.new symbol plan.method.convention) with
  | .ok _ b => .ok b.finish
  | .error fault _ => .error fault

theorem enter_flat (hs : s.convention.isAsync = false) :
    enter s = s.paramKinds.mapM Builder.param >>= fun params =>
      pure (flatPlan s, Explosion.ofList params) := by
  unfold enter flatPlan
  cases hc : s.convention with
  | ordinary => rfl
  | yieldOnce => rfl
  | async =>
    rw [hc] at hs
    cases hs

/-- What comes after the only parameter of an asynchronous thunk was made. -/
def attach (f : Frame) (params : List Var) : Build (ConventionPlan × Explosion) :=
  match params with
  | [context] => do
    Builder.asyncEntry context f.size
    return (.async context f, .ofList params)
  | _ => throw (.trap .contextNotAlone)

theorem enter_async (hs : s.convention = .async) {f : Frame} (hframe : s.frame = some f) :
    enter s = s.paramKinds.mapM Builder.param >>= attach f := by
  simp only [enter, hs, Lowered.contextFrame, hframe, Step.liftM_ok, pure_bind]
  rfl

/-- Making the native parameters succeeds, and the frame that is attached is that of the
signature. -/
theorem run_enter (h : s.frame.isSome = s.convention.isAsync) (symbol : String)
    (convention : Convention) : ∃ plan explosion b,
      enter s (Builder.new symbol convention) = .ok (plan, explosion) b ∧ b.name = symbol ∧
        plan.frame? = s.frame := by
  cases hasync : s.convention.isAsync with
  | false =>
    have hnone : s.frame = none := by rwa [hasync, Option.isSome_eq_false_iff,
      Option.isNone_iff_eq_none] at h
    refine ⟨flatPlan s, .ofList (List.range' 0 s.paramKinds.length),
      (Builder.new symbol convention).withParams s.paramKinds, ?_, rfl, ?_⟩
    · rw [enter_flat hasync, Step.bind_of_ok (run_params _ _)]
      rfl
    · rw [hnone, flatPlan]
      split <;> rfl
  | true =>
    rw [hasync] at h
    obtain ⟨frame, hframe⟩ := Option.isSome_iff_exists.mp h
    have hs := Convention.eq_async hasync
    refine ⟨.async 0 frame, .ofList [0], ((Builder.new symbol convention).withParams [.ptr]).grow []
      [.asyncEntry 0 frame.size], ?_, rfl, hframe.symm⟩
    rw [enter_async hs hframe, Lowered.paramKinds_async hs, Step.bind_of_ok (run_params _ _)]
    exact Step.bind_of_ok (run_emit (open_withParams symbol convention [.ptr]) _)

end Thunk

end Dispatch
