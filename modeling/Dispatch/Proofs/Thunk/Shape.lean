import Dispatch.Proofs.Code.Straight
import Dispatch.Proofs.Generation

/-!
# The shape of dispatch thunks

Whatever the method, the code of its dispatch thunk is one block in which every variable
is defined once and read only afterwards.  It calls once, with arguments of the kinds
that the method takes, and it moves every value that is passed by address out of the
caller's memory once.

## Main definitions

* `Lowered.nativeParts` — the native parameters of a flat signature, part by part.
* `Lowered.indirectParams` — the parameters whose values are passed by address.
* `Lowered.HoldsAddress` — the variable with the address of a parameter.
* `Thunk.WellFormed` — a function that is a thunk for a native signature.

## Main results

* `seals_forwardFlat`, `seals_forwardAsync` — the two kinds of thunks after the entry.
* `Thunk.wellFormed_of_function` — every generated thunk is well formed.
-/

namespace Dispatch

open Registers

/-! ### Kinds of arguments -/

namespace Passing

/-- The kinds of the native words of a value passed this way. -/
def registerKinds : Passing → List Scalar
  | direct schema => schema.nativeKinds
  | indirect _ => [.ptr]
  | address => [.ptr]

/-- The kinds of the variables that a value passed this way stands for. -/
def componentKinds : Passing → List Scalar
  | direct schema => schema.components
  | indirect schema => schema.components
  | address => [.ptr]

theorem length_componentKinds (passing : Passing) :
    passing.componentKinds.length = passing.width := by
  cases passing <;> rfl

theorem map_kind_ofPassing (index : Nat) (passing : Passing) :
    (NativeParam.ofPassing index passing).map NativeParam.kind = passing.registerKinds := by
  cases passing with
  | direct schema =>
    simp only [NativeParam.ofPassing, List.map_map, registerKinds]
    exact List.zipIdx_map_fst 0 schema.nativeKinds
  | indirect schema => rfl
  | address => rfl

/-- The index of a parameter, if its value is passed by address. -/
def indirectAt (index : Nat) : Passing → List Nat
  | indirect _ => [index]
  | _ => []

end Passing

/-- The variables of parameters have the kinds of their components. -/
def HaveComponents (all : List Scalar) (carriers : List Carrier) (uss : List (List Var)) : Prop :=
  List.Forall₂ (fun c us => HaveKinds all us c.passing.componentKinds) carriers uss

section HaveComponents

variable {all all' : List Scalar} {carriers : List Carrier} {uss : List (List Var)}

theorem HaveComponents.mono (h : HaveComponents all carriers uss) (hall : all <+: all') :
    HaveComponents all' carriers uss :=
  h.imp fun _ _ h => h.mono hall

theorem HaveComponents.widths (h : HaveComponents all carriers uss) :
    uss.map List.length = carriers.map fun c => c.passing.width := by
  induction h with
  | nil => rfl
  | cons hone _ ih =>
    rw [List.map_cons, List.map_cons, ih, hone.length_eq, Passing.length_componentKinds]

theorem HaveComponents.below (h : HaveComponents all carriers uss) {us : List Var}
    (hus : us ∈ uss) : Below all.length us := by
  induction h with
  | nil => cases hus
  | cons hone _ ih =>
    rcases List.mem_cons.mp hus with rfl | hus
    · exact hone.below
    · exact ih hus

end HaveComponents

namespace Lowered

/-- The native parameters of an ordinary function or coroutine, part by part. -/
def nativeParts (s : Lowered) : Parts NativeParam where
  resumeBuffer := if s.convention.isCoroutine then some (.ptr .resumeBuffer) else none
  indirectReturn := if s.hasIndirectReturn then some (.ptr .indirectReturn) else none
  params := s.carriers.zipIdx.flatMap fun (c, index) => NativeParam.ofPassing index c.passing
  bindings := (List.range s.bindingCount).map fun index => .ptr (.genericBinding index)
  receiver := .ptr .selfValue
  errorSlot := if s.throws then some (.ptr .errorSlot) else none
  witness := if s.witness then some (.ptr .selfMetadata, .ptr .selfWitnessTable) else none

theorem toList_nativeParts (s : Lowered) : s.nativeParts.toList = s.flatParams := by
  simp only [Parts.toList, nativeParts, flatParams]
  cases s.convention.isCoroutine <;> cases s.hasIndirectReturn <;> cases s.throws <;>
    cases s.witness <;> rfl

theorem fits_nativeParts (s : Lowered) : s.nativeParts.Fits s where
  resume := by cases h : s.convention.isCoroutine <;> simp [nativeParts, h]
  indirect := by cases h : s.hasIndirectReturn <;> simp [nativeParts, h]
  params := Parts.length_carrierParams s.carriers 0
  bindings := by simp [nativeParts]
  error := by cases h : s.throws <;> simp [nativeParts, h]
  witness := by cases h : s.witness <;> simp [nativeParts, h]

theorem paramKinds_flat {s : Lowered} (hs : s.convention.isAsync = false) :
    s.paramKinds = s.flatParams.map NativeParam.kind := by
  simp only [paramKinds, params, hs, Bool.false_eq_true, if_false]

/-- The parameters whose values are passed by address, by their indices. -/
def indirectParams (s : Lowered) : List Nat :=
  s.carriers.zipIdx.flatMap fun (c, index) => c.passing.indirectAt index

/-- In a function with this native signature, the variable holds the address of the value
of a parameter: it is a native parameter of that role, or loaded from the parameter's
field of the context frame. -/
inductive HoldsAddress (s : Lowered) (f : Function) (code : List Instr) (index : Nat) (v : Var) :
    Prop where
  | native (position : Nat) (role : s.params[position]? = some (.ptr (.paramIndirect index)))
    (param : f.params[position]? = some ⟨v, .ptr⟩)
  | field (context : Var) (frame : Frame) (offset : Nat) (param : f.params = [⟨context, .ptr⟩])
    (frame_eq : s.frame = some frame) (field : frame.args[index]? = some (.address offset))
    (load : .load v context offset ∈ code)

end Lowered

/-- The native parameters that variables stand for give them their kinds. -/
theorem haveKinds_of_params {params ps : List NativeParam} {all : List Scalar} {vs : List Var}
    (hvs : vs.map (fun v => params[v]?) = ps.map some)
    (hall : params.map NativeParam.kind <+: all) : HaveKinds all vs (ps.map NativeParam.kind) := by
  refine HaveKinds.mono ?_ hall
  unfold HaveKinds
  simp only [List.getElem?_map]
  have hmap := congrArg (List.map (Option.map NativeParam.kind)) hvs
  rw [List.map_map, List.map_map] at hmap
  rw [List.map_map]
  exact hmap

/-! ### Recovering flat arguments -/

section Flat

variable {b : Builder} {s : Lowered} {params : List NativeParam}

theorem writes_flatParam (hb : b.Open) {e : Explosion} {c : Carrier} {vs rest : List Var}
    {index : Nat} (he : e.pending = vs ++ rest)
    (hvs : vs.map (fun v => params[v]?) = (NativeParam.ofPassing index c.passing).map some)
    (hparams : params.map NativeParam.kind <+: b.varKinds) :
    Writes (Arguments.flatParam e c) b fun a b' code => a.2.pending = rest ∧
      HaveKinds b'.varKinds a.1 c.passing.componentKinds ∧ calls code = [] ∧
      (sources code).Sublist vs ∧
      List.Forall₂ (fun index v => params[v]? = some (.ptr (.paramIndirect index)))
        (c.passing.indirectAt index) (sources code) := by
  have hkinds := haveKinds_of_params hvs hparams
  rw [Passing.map_kind_ofPassing] at hkinds
  have hbelow : Below b.vars vs := hkinds.below
  unfold Arguments.flatParam
  cases hp : c.passing with
  | direct schema =>
    rw [hp] at hkinds
    obtain ⟨e', hclaim, he'⟩ := Explosion.claim_ok he
    rw [hkinds.length_eq] at hclaim
    refine writes_liftM_bind fun a ha => ?_
    cases hclaim.symm.trans ha
    refine Writes.bind hb (writes_defineAll hb (fun _ => hbelow) fun _ => rfl) ?_
    rintro us b₁ code - - ⟨hus, rfl⟩
    exact writes_pure ⟨he', hus, rfl, List.nil_sublist _, .nil⟩
  | indirect schema =>
    rw [hp] at hkinds hvs
    obtain ⟨v, rfl⟩ := List.length_eq_one_iff.mp hkinds.length_eq
    obtain ⟨e', hclaim, he'⟩ := Explosion.claimNext_ok he
    refine writes_liftM_bind fun a ha => ?_
    cases hclaim.symm.trans ha
    refine Writes.bind hb (writes_defineAll hb (fun _ => hbelow) fun _ => rfl) ?_
    rintro us b₁ code - - ⟨hus, rfl⟩
    refine writes_pure ⟨he', hus, rfl, List.Sublist.refl _, .cons ?_ .nil⟩
    exact (List.cons.inj hvs).1
  | address =>
    rw [hp] at hkinds
    obtain ⟨v, rfl⟩ := List.length_eq_one_iff.mp hkinds.length_eq
    obtain ⟨e', hclaim, he'⟩ := Explosion.claim_ok he
    refine writes_liftM_bind fun a ha => ?_
    cases hclaim.symm.trans ha
    exact writes_pure ⟨he', hkinds, rfl, List.nil_sublist _, .nil⟩

theorem writes_flatParams (carriers : List Carrier) : ∀ {b : Builder} {e : Explosion}
    {vs rest : List Var} {index : Nat}, b.Open → e.pending = vs ++ rest →
    vs.map (fun v => params[v]?) = ((carriers.zipIdx index).flatMap fun (c, index) =>
      NativeParam.ofPassing index c.passing).map some →
    params.map NativeParam.kind <+: b.varKinds →
    Writes (Arguments.flatParams e carriers) b fun a b' code => a.2.pending = rest ∧
      (∃ uss, a.1 = uss.flatten ∧ HaveComponents b'.varKinds carriers uss) ∧ calls code = [] ∧
      (sources code).Sublist vs ∧
      List.Forall₂ (fun index v => params[v]? = some (.ptr (.paramIndirect index)))
        ((carriers.zipIdx index).flatMap fun (c, index) => c.passing.indirectAt index)
        (sources code) := by
  induction carriers with
  | nil =>
    intro b e vs rest index hb he hvs _
    have hnil : vs = [] := List.map_eq_nil_iff.mp hvs
    subst hnil
    exact writes_pure ⟨he, ⟨[], rfl, .nil⟩, rfl, List.nil_sublist _, .nil⟩
  | cons c cs ih =>
    intro b e vs rest index hb he hvs hparams
    rw [List.zipIdx_cons, List.flatMap_cons, List.map_append] at hvs
    obtain ⟨vs₁, vs₂, rfl, hvs₁, hvs₂⟩ := List.map_eq_append_iff.mp hvs
    rw [List.append_assoc] at he
    rw [Arguments.flatParams]
    refine (writes_flatParam hb he hvs₁ hparams).bind hb ?_
    rintro ⟨us, e₁⟩ b₁ code₁ hb₁ hle₁ ⟨he₁, hus, hcalls₁, hsub₁, htaken₁⟩
    refine (ih hb₁ he₁ hvs₂ (hparams.trans hle₁)).bind hb₁ ?_
    rintro ⟨others, e₂⟩ b₂ code₂ hb₂ hle₂ ⟨he₂, ⟨uss, rfl, huss⟩, hcalls₂, hsub₂, htaken₂⟩
    refine writes_pure ⟨he₂, ⟨us :: uss, rfl, .cons (hus.mono hle₂) huss⟩, ?_, ?_, ?_⟩
    · simp only [calls_append, hcalls₁, hcalls₂]
      rfl
    · simp only [List.append_nil, sources_append]
      exact hsub₁.append hsub₂
    · simp only [List.append_nil, sources_append, List.zipIdx_cons, List.flatMap_cons]
      exact List.rel_append htaken₁ htaken₂

theorem writes_ofFlat (hb : b.Open) {e : Explosion} {p : Parts Var} (hp : p.Fits s)
    (he : e.pending = p.toList)
    (hnative : p.map (fun v => s.flatParams[v]?) = s.nativeParts.map some)
    (hparams : s.flatParams.map NativeParam.kind <+: b.varKinds) :
    Writes (Arguments.ofFlat s none e) b fun args b' code =>
      (∃ uss, args.Recovers s p uss ∧ HaveComponents b'.varKinds s.carriers uss) ∧
      calls code = [] ∧ (sources code).Sublist p.params ∧
      List.Forall₂ (fun index v => s.flatParams[v]? = some (.ptr (.paramIndirect index)))
        s.indirectParams (sources code) := by
  obtain ⟨e₁, h₁, he₁⟩ := Explosion.takeWitnessIf_ok hp.witness he
  obtain ⟨e₂, h₂, he₂⟩ := Explosion.takeLastIf_ok hp.error he₁
  have hfront : e₂.pending = p.resumeBuffer.toList
      ++ (p.indirectReturn.toList ++ p.params ++ p.bindings ++ [p.receiver]) := by
    rw [he₂]
    simp
  obtain ⟨e₃, h₃, he₃⟩ := Explosion.claimNextIf_ok hp.resume hfront
  obtain ⟨e₄, h₄, he₄⟩ := Explosion.takeLast_ok he₃
  have hnext : e₄.pending = p.indirectReturn.toList ++ (p.params ++ p.bindings) := by
    rw [he₄]
    simp
  obtain ⟨e₅, h₅, he₅⟩ := Explosion.claimNextIf_ok hp.indirect hnext
  unfold Arguments.ofFlat
  rw [h₁]
  refine emits_liftM_ok ?_
  simp only [h₂]
  refine emits_liftM_ok ?_
  rw [Arguments.installDestination_none]
  refine emits_liftM_ok ?_
  simp only [h₃]
  refine emits_liftM_ok ?_
  simp only [h₄]
  refine emits_liftM_ok ?_
  simp only [h₅]
  refine emits_liftM_ok ?_
  have hvs : p.params.map (fun v => s.flatParams[v]?) = s.nativeParts.params.map some :=
    congrArg Parts.params hnative
  refine Writes.bind hb (writes_flatParams s.carriers hb he₅ hvs hparams) ?_
  rintro ⟨us, e₆⟩ b₁ code₁ hb₁ hle₁ ⟨he₆, ⟨uss, rfl, huss⟩, hcalls, hsub, htaken⟩
  split
  · refine writes_pure ⟨⟨uss, ⟨rfl, rfl, rfl, rfl, rfl, rfl, ?_, huss.widths⟩, huss⟩, ?_⟩
    · exact congrArg (uss.flatten ++ ·) he₆
    · rw [List.append_nil]
      exact ⟨hcalls, hsub, htaken⟩
  · exact writes_throw _

end Flat

/-! ### Loading the implementation -/

section Forward

variable {b : Builder} {s : Lowered}

theorem writes_metadata (hb : b.Open) (p : Pool) (m : Method) {receiver : Var}
    (hreceiver : Below b.vars [receiver]) :
    Writes (Target.emitMetadata p m receiver) b fun v b' code =>
      Below b'.vars [v] ∧ Inert code := by
  unfold Target.emitMetadata
  refine writes_liftM_bind fun isMetadata _ => ?_
  cases isMetadata with
  | true => exact writes_pure ⟨hreceiver, inert_nil⟩
  | false =>
    refine Writes.imp (writes_define hb hreceiver rfl) ?_
    rintro v b' _ - ⟨-, hv, rfl⟩
    exact ⟨hv.below, rfl, rfl⟩

/-- The code that loads an implementation. -/
theorem writes_resolve (hb : b.Open) (p : Pool) (m : Method) (target : Target) {args : Arguments}
    (hreceiver : Below b.vars [args.receiver])
    (hwitness : ∀ w ∈ args.witness, Below b.vars [w.table]) :
    Writes (target.resolve p m args) b fun v b' code => Below b'.vars [v] ∧ Inert code := by
  cases target with
  | witness index =>
    rw [Target.resolve]
    split
    · next w hw =>
      refine Writes.imp (writes_define hb (hwitness w hw) rfl) ?_
      rintro v b' _ - ⟨-, hv, rfl⟩
      exact ⟨hv.below, rfl, rfl⟩
    · exact writes_throw _
  | virtual slot signing =>
    rw [Target.resolve_virtual]
    refine (writes_metadata hb p m hreceiver).bind hb ?_
    rintro metadata b₁ code₁ hb₁ - ⟨hmetadata, hinert⟩
    refine Writes.bind hb₁ (writes_define hb₁ hmetadata rfl) ?_
    rintro entry b₂ _ hb₂ - ⟨-, hentry, rfl⟩
    cases signing with
    | none => exact writes_pure ⟨hentry.below, by simpa using hinert.append ⟨rfl, rfl⟩⟩
    | some signing =>
      refine Writes.imp (writes_define hb₂ hentry.below rfl) ?_
      rintro v b' _ - ⟨-, hv, rfl⟩
      exact ⟨hv.below, hinert.append ⟨rfl, rfl⟩⟩

/-! ### Passing arguments on -/

theorem writes_storeWords {addr : Var} {values : List Var} : ∀ {b : Builder} {offset : Nat},
    b.Open → Below b.vars [addr] → Below b.vars values →
    Writes (Thunk.storeWords addr offset values) b fun _ _ code => Inert code := by
  induction values with
  | nil => exact fun _ _ _ => writes_pure inert_nil
  | cons value rest ih =>
    intro b offset hb haddr hvalues
    have hone : Below b.vars [value] := hvalues.of_subset (by simp)
    rw [Thunk.storeWords]
    refine Writes.bind hb (writes_emit hb (hone.append haddr) rfl) ?_
    rintro - b₁ _ hb₁ hle₁ ⟨-, rfl⟩
    refine (ih hb₁ (haddr.mono hle₁.length_le) (hvalues.of_subset (by simp) |>.mono
      hle₁.length_le)).imp ?_
    intro _ _ code _ hinert
    exact Inert.append ⟨rfl, rfl⟩ hinert

theorem writes_spill (hb : b.Open) {values : List Var} (hvalues : Below b.vars values) :
    Writes (Thunk.spill values) b fun temp b' code =>
      HaveKinds b'.varKinds [temp] [.ptr] ∧ Inert code := by
  unfold Thunk.spill
  refine writes_liftM_bind fun bytes _ => ?_
  refine Writes.bind hb (writes_define hb (below_nil _) rfl) ?_
  rintro temp b₁ _ hb₁ hle₁ ⟨-, htemp, rfl⟩
  refine Writes.bind hb₁ (writes_storeWords hb₁ htemp.below (hvalues.mono hle₁.length_le)) ?_
  rintro - b₂ code₂ hb₂ hle₂ hinert
  refine writes_pure ⟨htemp.mono hle₂, ?_⟩
  rw [List.append_nil]
  exact Inert.append ⟨rfl, rfl⟩ hinert

theorem writes_flatArgument (hb : b.Open) {c : Carrier} {values : List Var}
    (hvalues : HaveKinds b.varKinds values c.passing.componentKinds) :
    Writes (Thunk.flatArgument c values) b fun vs b' code =>
      HaveKinds b'.varKinds vs c.passing.registerKinds ∧ Inert code := by
  unfold Thunk.flatArgument
  cases hp : c.passing with
  | direct schema =>
    simp only
    split
    · next hempty =>
      refine writes_pure ⟨?_, inert_nil⟩
      rw [Passing.registerKinds, List.isEmpty_iff.mp hempty]
      exact haveKinds_nil
    · refine Writes.imp (writes_defineAll hb (fun _ => hvalues.below) fun _ => rfl) ?_
      rintro vs b' _ - ⟨hvs, rfl⟩
      exact ⟨hvs, rfl, rfl⟩
  | indirect schema =>
    refine (writes_spill hb hvalues.below).bind hb ?_
    rintro temp b₁ code hb₁ - ⟨htemp, hinert⟩
    exact writes_pure ⟨htemp, by simpa using hinert⟩
  | address =>
    rw [hp] at hvalues
    exact writes_pure ⟨hvalues, inert_nil⟩

theorem writes_flatArguments (carriers : List Carrier) : ∀ {b : Builder} {uss : List (List Var)},
    b.Open → HaveComponents b.varKinds carriers uss →
    Writes (Thunk.flatArguments (carriers.zip uss)) b fun vs b' code =>
      HaveKinds b'.varKinds vs (carriers.flatMap fun c => c.passing.registerKinds) ∧ Inert code := by
  induction carriers with
  | nil => exact fun _ _ => writes_pure ⟨haveKinds_nil, inert_nil⟩
  | cons c cs ih =>
    intro b uss hb huss
    cases huss with
    | @cons _ us _ uss hus huss =>
      rw [List.zip_cons_cons, Thunk.flatArguments]
      refine (writes_flatArgument hb hus).bind hb ?_
      rintro vs b₁ code₁ hb₁ hle₁ ⟨hvs, hinert₁⟩
      refine (ih hb₁ (HaveComponents.mono huss hle₁)).bind hb₁ ?_
      rintro others b₂ code₂ hb₂ hle₂ ⟨hothers, hinert₂⟩
      refine writes_pure ⟨(hvs.mono hle₂).append hothers, ?_⟩
      rw [List.append_nil]
      exact hinert₁.append hinert₂

theorem map_kind_params (carriers : List Carrier) (index : Nat) :
    ((carriers.zipIdx index).flatMap fun (c, index) =>
        NativeParam.ofPassing index c.passing).map NativeParam.kind
      = carriers.flatMap fun c => c.passing.registerKinds := by
  induction carriers generalizing index with
  | nil => rfl
  | cons c cs ih =>
    rw [List.zipIdx_cons, List.flatMap_cons, List.map_append, Passing.map_kind_ofPassing, ih,
      List.flatMap_cons]

/-- Variables that stand for the native parameters, with new ones of the same kinds in place
of the parameters. -/
theorem haveKinds_withParams {all : List Scalar} {p : Parts Var} {params : List Var}
    (hp : p.Fits s) (hnative : p.map (fun v => s.flatParams[v]?) = s.nativeParts.map some)
    (hall : s.flatParams.map NativeParam.kind <+: all)
    (hparams : HaveKinds all params (s.carriers.flatMap fun c => c.passing.registerKinds)) :
    HaveKinds all (p.withParams params).toList (s.flatParams.map NativeParam.kind) := by
  have hlist : HaveKinds all p.toList (s.flatParams.map NativeParam.kind) := by
    refine haveKinds_of_params ?_ hall
    rw [← Parts.toList_map, hnative, Parts.toList_map, Lowered.toList_nativeParts]
  have hparts : p.map (fun v => all[v]?) = s.nativeParts.map fun np => some np.kind := by
    refine Parts.toList_inj (hp.map _) (s.fits_nativeParts.map _) ?_
    rw [Parts.toList_map, Parts.toList_map, Lowered.toList_nativeParts, hlist, List.map_map]
    rfl
  have hsame : (p.withParams params).map (fun v => all[v]?) = p.map fun v => all[v]? := by
    have hold : p.params.map (fun v => all[v]?) = params.map fun v => all[v]? := by
      rw [hparams, ← map_kind_params s.carriers 0, List.map_map]
      exact congrArg Parts.params hparts
    simp only [Parts.map, Parts.withParams, hold]
  unfold HaveKinds
  rw [← Parts.toList_map, hsame, Parts.toList_map]
  exact hlist

/-- The code of a call calls a function value of the signature once. -/
def CallsOnce (s : Lowered) (all : List Scalar) (code : List Instr) : Prop :=
  ∃ callee args results, calls code = [.call callee s.convention args results] ∧
    HaveKinds all args s.paramKinds ∧ HaveKinds all results s.results

theorem writes_nativeCall (hb : b.Open) (hs : s.convention.isAsync = false) {args : Arguments}
    {p : Parts Var} {uss : List (List Var)} {function : Var} (hargs : args.Recovers s p uss)
    (hp : p.Fits s) (hnative : p.map (fun v => s.flatParams[v]?) = s.nativeParts.map some)
    (hparams : s.flatParams.map NativeParam.kind <+: b.varKinds)
    (huss : HaveComponents b.varKinds s.carriers uss) (hfunction : Below b.vars [function]) :
    Writes (Thunk.nativeCall s function args) b fun vs b' code =>
      HaveKinds b'.varKinds vs s.results ∧ sources code = [] ∧ CallsOnce s b'.varKinds code := by
  rw [Thunk.nativeCall_eq hs hargs hp]
  refine Writes.bind hb (writes_flatArguments s.carriers hb huss) ?_
  rintro params b₁ code₁ hb₁ hle₁ ⟨hvs, hinert⟩
  have hlist := haveKinds_withParams hp hnative (hparams.trans hle₁) hvs
  refine Writes.imp (writes_defineAll hb₁
    (fun _ => (hfunction.mono hle₁.length_le).append hlist.below) fun _ => rfl) ?_
  rintro vs b₂ _ hle₂ ⟨hresults, rfl⟩
  refine ⟨hresults, by rw [sources_append, hinert.2]; rfl, function,
    (p.withParams params).toList, vs, ?_, ?_, hresults⟩
  · rw [calls_append, hinert.1]
    rfl
  · rw [Lowered.paramKinds_flat hs]
    exact hlist.mono hle₂

/-- Returning what a call gave. -/
theorem seals_handBack (hb : b.Open) (hs : s.convention.isAsync = false) {vs : List Var}
    (hvs : HaveKinds b.varKinds vs s.results)
    (hpacked : ∀ schema, s.result.passing = .direct schema → schema.Packed) :
    Seals (Thunk.handBack s vs) b fun kinds code terminator =>
      Inert code ∧ ∃ us, terminator = .ret us ∧ HaveKinds kinds us s.results := by
  unfold Thunk.handBack
  by_cases hco : s.convention.isCoroutine = true
  · rw [if_pos hco]
    exact seals_terminate hb ⟨inert_nil, vs, rfl, hvs⟩
  · rw [if_neg hco]
    have hresults : s.results = s.resultKinds := by
      rw [Lowered.results]
      cases hc : s.convention with
      | ordinary => rfl
      | async => rw [hc] at hs; cases hs
      | yieldOnce => rw [hc] at hco; exact absurd rfl hco
    rw [hresults] at hvs ⊢
    unfold Lowered.resultKinds at hvs ⊢
    cases hp : s.result.passing with
    | indirect schema => exact seals_terminate hb ⟨inert_nil, [], rfl, haveKinds_nil⟩
    | address => exact seals_terminate hb ⟨inert_nil, [], rfl, haveKinds_nil⟩
    | direct schema =>
      simp only [hp] at hvs ⊢
      by_cases hempty : schema.components.isEmpty = true
      · rw [if_pos hempty]
        refine seals_terminate hb ⟨inert_nil, [], rfl, ?_⟩
        rw [(hpacked schema hp).nativeKinds_eq_nil.mpr (List.isEmpty_iff.mp hempty)]
        exact haveKinds_nil
      · rw [if_neg hempty]
        refine Writes.seals hb (writes_defineAll hb (fun _ => hvs.below) fun _ => rfl) ?_
        rintro us b₁ _ hb₁ - ⟨hus, rfl⟩
        refine Writes.seals hb₁ (writes_defineAll hb₁ (fun _ => hus.below) fun _ => rfl) ?_
        rintro ws b₂ _ hb₂ - ⟨hws, rfl⟩
        exact seals_terminate hb₂ fun _ _ => ⟨⟨rfl, rfl⟩, ws, rfl, hws⟩

/-- An ordinary thunk or a coroutine after its entry. -/
theorem seals_forwardFlat (hb : b.Open) (hs : s.convention.isAsync = false)
    (hframe : s.frame = none) {pool : Pool} {m : Method} {target : Attempt Target}
    {p : Parts Var} (hp : p.Fits s)
    (hnative : p.map (fun v => s.flatParams[v]?) = s.nativeParts.map some)
    (hparams : s.flatParams.map NativeParam.kind <+: b.varKinds)
    (hpacked : ∀ schema, s.result.passing = .direct schema → schema.Packed) :
    Seals (Thunk.forward pool target { method := m, own := s, forwarded := s } (Thunk.flatPlan s)
        (.ofList p.toList)) b fun kinds code terminator =>
      CallsOnce s kinds code ∧ (sources code).Sublist p.params ∧
        List.Forall₂ (fun index v => s.flatParams[v]? = some (.ptr (.paramIndirect index)))
          s.indirectParams (sources code) ∧
        ∃ vs, terminator = .ret vs ∧ HaveKinds kinds vs s.results := by
  have hbelow : Below b.vars p.toList := by
    have hlist : HaveKinds b.varKinds p.toList (s.flatParams.map NativeParam.kind) := by
      refine haveKinds_of_params ?_ hparams
      rw [← Parts.toList_map, hnative, Parts.toList_map, Lowered.toList_nativeParts]
    exact hlist.below
  rw [Thunk.forward_flat hframe]
  refine Writes.seals hb (writes_ofFlat hb hp rfl hnative hparams) ?_
  rintro args b₁ code₁ hb₁ hle₁ ⟨⟨uss, hargs, huss⟩, hcalls₁, hsub, htaken⟩
  refine seals_liftM_bind fun t _ => ?_
  have hreceiver : Below b₁.vars [args.receiver] := by
    refine (hbelow.mono hle₁.length_le).of_subset ?_
    simp [hargs.receiver, Parts.toList]
  have hwitness : ∀ w ∈ args.witness, Below b₁.vars [w.table] := by
    intro w hw
    rw [hargs.witness, Option.mem_def, Option.map_eq_some_iff] at hw
    obtain ⟨w', hw', rfl⟩ := hw
    refine (hbelow.mono hle₁.length_le).of_subset ?_
    simp [Parts.toList, Parts.witnessList, hw']
  refine Writes.seals hb₁ (writes_resolve hb₁ pool m t hreceiver hwitness) ?_
  rintro function b₂ code₂ hb₂ hle₂ ⟨hfunction, hinert₂⟩
  refine Writes.seals hb₂ (writes_nativeCall hb₂ hs hargs hp hnative
    (hparams.trans (hle₁.trans hle₂)) (huss.mono hle₂) hfunction) ?_
  rintro vs b₃ code₃ hb₃ - ⟨hvs, hsources₃, callee, native, results, hcalls₃, hargs₃, hresults₃⟩
  refine Step.Ends.imp (seals_handBack hb₃ hs hvs hpacked) ?_ fun _ _ h => h
  rintro - _ ⟨kinds, code₄, terminator, rfl, hstraight, hinert₄, hreturns⟩
  refine ⟨kinds, code₄, terminator, rfl, hstraight, fun hkinds _ _ => ⟨?_, ?_, ?_, hreturns⟩⟩
  · refine ⟨callee, native, results, ?_, hargs₃.mono hkinds, hresults₃.mono hkinds⟩
    simp only [calls_append, hcalls₁, hinert₂.1, hcalls₃, hinert₄.1]
    rfl
  · simpa only [sources_append, hinert₂.2, hsources₃, hinert₄.2, List.append_nil] using hsub
  · simpa only [sources_append, hinert₂.2, hsources₃, hinert₄.2, List.append_nil] using htaken

end Forward

/-! ### Frames -/

section Frame

variable {b : Builder} {s : Lowered} {context : Var}

theorem writes_load (hb : b.Open) {kind : Scalar} {addr : Var} {offset : Nat}
    (haddr : Below b.vars [addr]) :
    Writes (Builder.load kind addr offset) b fun v b' code =>
      HaveKinds b'.varKinds [v] [kind] ∧ code = [.load v addr offset] :=
  Writes.imp (writes_define hb haddr rfl) fun _ _ _ _ h => h.2

theorem writes_loadField (hb : b.Open) (hcontext : Below b.vars [context]) (offset : Option Nat) :
    Writes (Arguments.loadField context offset) b fun o b' code =>
      o.isSome = offset.isSome ∧ Below b'.vars o.toList ∧ Inert code := by
  cases offset with
  | none => exact writes_pure ⟨rfl, below_nil _, inert_nil⟩
  | some offset =>
    rw [Arguments.loadField]
    refine (writes_load hb hcontext).bind hb ?_
    rintro v b₁ _ hb₁ - ⟨hv, rfl⟩
    exact writes_pure ⟨rfl, hv.below, rfl, rfl⟩

theorem writes_loadWords {addr : Var} (kinds : List Scalar) : ∀ {b : Builder} {offset : Nat},
    b.Open → Below b.vars [addr] →
    Writes (Arguments.loadWords addr offset kinds) b fun vs b' code =>
      HaveKinds b'.varKinds vs kinds ∧ Inert code := by
  induction kinds with
  | nil => exact fun _ _ => writes_pure ⟨haveKinds_nil, inert_nil⟩
  | cons kind rest ih =>
    intro b offset hb haddr
    rw [Arguments.loadWords]
    refine (writes_load hb haddr).bind hb ?_
    rintro v b₁ _ hb₁ hle₁ ⟨hv, rfl⟩
    refine (ih hb₁ (haddr.mono hle₁.length_le)).bind hb₁ ?_
    rintro vs b₂ code₂ hb₂ hle₂ ⟨hvs, hinert⟩
    refine writes_pure ⟨(hv.mono hle₂).append hvs, ?_⟩
    rw [List.append_nil]
    exact Inert.append ⟨rfl, rfl⟩ hinert

theorem writes_frameWitness (hb : b.Open) (s : Lowered) (hcontext : Below b.vars [context]) :
    Writes (Arguments.frameWitness s.frameLayout context) b fun o b' code =>
      o.isSome = s.witness ∧ Below b'.vars (o.toList.flatMap fun v => [v.metadata, v.table]) ∧
        Inert code := by
  unfold Arguments.frameWitness
  cases hs : s.witness with
  | false =>
    simp only [Lowered.frameLayout, hs, Bool.false_eq_true, if_false]
    exact writes_pure ⟨rfl, below_nil _, inert_nil⟩
  | true =>
    simp only [Lowered.frameLayout, hs, if_true]
    refine (writes_load hb hcontext).bind hb ?_
    rintro metadata b₁ _ hb₁ hle₁ ⟨hmetadata, rfl⟩
    refine (writes_load hb₁ (hcontext.mono hle₁.length_le)).bind hb₁ ?_
    rintro table b₂ _ hb₂ hle₂ ⟨htable, rfl⟩
    exact writes_pure ⟨rfl, (hmetadata.mono hle₂).below.append htable.below, rfl, rfl⟩

/-- The components of a parameter, or its address, from its field; `fields` are those of
the whole frame. -/
theorem writes_frameParam (hb : b.Open) (hcontext : Below b.vars [context]) {start index : Nat}
    {c : Carrier} {fields : List FrameField}
    (hfield : fields[index]? = some (FrameField.ofPassing start c.passing)) :
    Writes (Arguments.frameParam context index (FrameField.ofPassing start c.passing) c) b
      fun vs b' code => HaveKinds b'.varKinds vs c.passing.componentKinds ∧ calls code = [] ∧
        (sources code).Sublist (code.flatMap Instr.defs) ∧
        List.Forall₂ (fun index v => ∃ offset, fields[index]? = some (.address offset) ∧
          .load v context offset ∈ code) (c.passing.indirectAt index) (sources code) := by
  unfold Arguments.frameParam
  cases hp : c.passing with
  | direct schema =>
    refine (writes_loadWords schema.components hb hcontext).imp ?_
    rintro vs b' code - ⟨hvs, hinert⟩
    refine ⟨hvs, hinert.1, ?_, ?_⟩
    · rw [hinert.2]
      exact List.nil_sublist _
    · rw [hinert.2]
      exact .nil
  | indirect schema =>
    rw [hp] at hfield
    refine (writes_load hb hcontext).bind hb ?_
    rintro address b₁ _ hb₁ - ⟨haddress, rfl⟩
    refine Writes.imp (writes_defineAll hb₁ (fun _ => haddress.below) fun _ => rfl) ?_
    rintro vs b₂ _ - ⟨hvs, rfl⟩
    refine ⟨hvs, rfl, ?_, .cons ⟨8 * start, hfield, List.mem_cons_self⟩ .nil⟩
    exact List.singleton_sublist.mpr List.mem_cons_self
  | address =>
    refine (writes_load hb hcontext).bind hb ?_
    rintro address b₁ _ hb₁ - ⟨haddress, rfl⟩
    exact writes_pure ⟨haddress, rfl, List.nil_sublist _, .nil⟩

theorem writes_frameParams (fields : List FrameField) (carriers : List Carrier) :
    ∀ {b : Builder} {start index : Nat}, b.Open → Below b.vars [context] →
    fields.drop index = frameFields start carriers →
    Writes (Arguments.frameParams context index ((frameFields start carriers).zip carriers)) b
      fun vs b' code => (∃ uss, vs = uss.flatten ∧ HaveComponents b'.varKinds carriers uss) ∧
        calls code = [] ∧ (sources code).Sublist (code.flatMap Instr.defs) ∧
        List.Forall₂ (fun index v => ∃ offset, fields[index]? = some (.address offset) ∧
          .load v context offset ∈ code)
          ((carriers.zipIdx index).flatMap fun (c, index) => c.passing.indirectAt index)
          (sources code) := by
  induction carriers with
  | nil =>
    intro b start index _ _ _
    exact writes_pure ⟨⟨[], rfl, .nil⟩, rfl, List.nil_sublist _, .nil⟩
  | cons c cs ih =>
    intro b start index hb hcontext hfields
    rw [frameFields] at hfields
    have hfield : fields[index]? = some (FrameField.ofPassing start c.passing) := by
      have h := congrArg (·[0]?) hfields
      simpa using h
    have hnext : fields.drop (index + 1) = frameFields (start + c.passing.frameWords) cs := by
      rw [← List.tail_drop, hfields]
      rfl
    rw [frameFields, List.zip_cons_cons, Arguments.frameParams]
    refine (writes_frameParam hb hcontext hfield).bind hb ?_
    rintro us b₁ code₁ hb₁ hle₁ ⟨hus, hcalls₁, hsub₁, htaken₁⟩
    refine (ih hb₁ (hcontext.mono hle₁.length_le) hnext).bind hb₁ ?_
    rintro _ b₂ code₂ hb₂ hle₂ ⟨⟨uss, rfl, huss⟩, hcalls₂, hsub₂, htaken₂⟩
    refine writes_pure ⟨⟨us :: uss, rfl, .cons (hus.mono hle₂) huss⟩, ?_, ?_, ?_⟩
    · simp only [calls_append, hcalls₁, hcalls₂]
      rfl
    · simp only [List.append_nil, sources_append, List.flatMap_append]
      exact hsub₁.append hsub₂
    · simp only [List.append_nil, sources_append, List.zipIdx_cons, List.flatMap_cons]
      refine List.rel_append (htaken₁.imp ?_) (htaken₂.imp ?_)
      · rintro _ _ ⟨offset, hoffset, hload⟩
        exact ⟨offset, hoffset, List.mem_append_left _ hload⟩
      · rintro _ _ ⟨offset, hoffset, hload⟩
        exact ⟨offset, hoffset, List.mem_append_right _ hload⟩

/-- The values that are taken come from addresses in the context frame. -/
def TakesFields (s : Lowered) (context : Var) (code : List Instr) : Prop :=
  (sources code).Sublist (code.flatMap Instr.defs) ∧
    List.Forall₂ (fun index v => ∃ offset, s.frameLayout.args[index]? = some (.address offset) ∧
      .load v context offset ∈ code) s.indirectParams (sources code)

/-- Code that takes nothing may stand before and after. -/
theorem TakesFields.within {code before after : List Instr} (h : TakesFields s context code)
    (hbefore : sources before = []) (hafter : sources after = []) :
    TakesFields s context (before ++ (code ++ after)) := by
  have hsources : sources (before ++ (code ++ after)) = sources code := by
    rw [sources_append, sources_append, hbefore, hafter, List.nil_append, List.append_nil]
  refine ⟨?_, ?_⟩
  · rw [hsources, List.flatMap_append, List.flatMap_append]
    exact (h.1.trans (List.sublist_append_left _ _)).trans (List.sublist_append_right _ _)
  · rw [hsources]
    refine h.2.imp ?_
    rintro index v ⟨offset, hoffset, hload⟩
    exact ⟨offset, hoffset, List.mem_append_right _ (List.mem_append_left _ hload)⟩

/-- The code that reads a frame. -/
theorem writes_ofFrame (hb : b.Open) (s : Lowered) (hcontext : Below b.vars [context]) :
    Writes (Arguments.ofFrame s s.frameLayout none context) b fun args b' code =>
      (∃ p uss, args.Recovers s p uss ∧ p.Rest s ∧ Below b'.vars p.toFrame ∧
        HaveComponents b'.varKinds s.carriers uss) ∧
      calls code = [] ∧ TakesFields s context code := by
  unfold Arguments.ofFrame
  refine (writes_load hb hcontext).bind hb ?_
  rintro receiver b₁ _ hb₁ hle₁ ⟨hreceiver, rfl⟩
  have hcontext₁ := hcontext.mono hle₁.length_le
  refine (writes_frameWitness hb₁ s hcontext₁).bind hb₁ ?_
  rintro witness b₂ code₂ hb₂ hle₂ ⟨hwitness, hbelow₂, hinert₂⟩
  have hcontext₂ := hcontext₁.mono hle₂.length_le
  rw [hwitness, bne_self_eq_false, if_neg (by decide)]
  refine (writes_loadField hb₂ hcontext₂ _).bind hb₂ ?_
  rintro errorSlot b₃ code₃ hb₃ hle₃ ⟨herror, hbelow₃, hinert₃⟩
  have hcontext₃ := hcontext₂.mono hle₃.length_le
  refine (writes_loadField hb₃ hcontext₃ _).bind hb₃ ?_
  rintro indirect b₄ code₄ hb₄ hle₄ ⟨hindirect, hbelow₄, hinert₄⟩
  have hcontext₄ := hcontext₃.mono hle₄.length_le
  rw [if_neg (by simp [Lowered.frameLayout])]
  refine (writes_frameParams s.frameLayout.args s.carriers hb₄ hcontext₄ rfl).bind hb₄ ?_
  rintro _ b₅ code₅ hb₅ hle₅ ⟨⟨uss, rfl, huss⟩, hcalls₅, htaken₅⟩
  refine (writes_loadWords _ hb₅ (hcontext₄.mono hle₅.length_le)).bind hb₅ ?_
  rintro bindings b₆ code₆ hb₆ hle₆ ⟨hbindings, hinert₆⟩
  have hwitness' : (witness.map fun v => (v.metadata, v.table)).map
      (fun v : Var × Var => (⟨v.1, v.2⟩ : WitnessVars)) = witness := by
    cases witness <;> rfl
  rw [Arguments.installDestination_none]
  refine emits_liftM_ok ?_
  refine writes_pure ⟨⟨⟨none, indirect, [], bindings, receiver, errorSlot,
    witness.map fun v => (v.metadata, v.table)⟩, uss, ⟨rfl, hwitness'.symm, rfl, rfl, rfl, rfl,
    rfl, huss.widths⟩, ⟨rfl, rfl, ?_, ?_, ?_, by rw [Option.isSome_map, hwitness]⟩, ?_,
    huss.mono hle₆⟩, ?_, ?_⟩
  · rw [hindirect, Lowered.frameLayout]
    cases s.hasIndirectReturn <;> rfl
  · rw [hbindings.length_eq, List.length_replicate]
    rfl
  · rw [herror, Lowered.frameLayout]
    cases s.throws <;> rfl
  · have hwl : Parts.witnessList (witness.map fun v => (v.metadata, v.table))
        = witness.toList.flatMap fun v => [v.metadata, v.table] := by
      cases witness <;> rfl
    have hle₃₆ := hle₄.trans (hle₅.trans hle₆)
    simp only [Parts.toFrame, hwl, List.append_nil]
    exact ((((hbelow₃.mono hle₃₆.length_le).append
      (hbelow₄.mono (hle₅.trans hle₆).length_le)).append hbindings.below).append
      (hreceiver.mono (hle₂.trans (hle₃.trans hle₃₆))).below).append
      (hbelow₂.mono (hle₃.trans hle₃₆).length_le)
  · simp only [calls_append, hinert₂.1, hinert₃.1, hinert₄.1, hcalls₅, hinert₆.1]
    rfl
  · have hbefore : Inert (.load receiver context s.frameLayout.localContext
        :: (code₂ ++ (code₃ ++ code₄))) :=
      (show Inert [_] from ⟨rfl, rfl⟩).append (hinert₂.append (hinert₃.append hinert₄))
    have hwithin := TakesFields.within (s := s) htaken₅ hbefore.2 hinert₆.2
    simpa using hwithin

theorem writes_store (hb : b.Open) {value addr : Var} {offset : Nat} (hvalue : Below b.vars [value])
    (haddr : Below b.vars [addr]) :
    Writes (Builder.store value addr offset) b fun _ _ code => Inert code := by
  refine Writes.imp (writes_emit hb (hvalue.append haddr) rfl) ?_
  rintro _ _ _ - ⟨-, rfl⟩
  exact ⟨rfl, rfl⟩

theorem writes_storeField (hb : b.Open) {frame : Var} (hframe : Below b.vars [frame])
    (missing : Trap) (offset : Option Nat) {value : Option Var}
    (hvalue : Below b.vars value.toList) :
    Writes (Thunk.storeField frame missing value offset) b fun _ _ code => Inert code := by
  cases offset with
  | none => exact writes_pure inert_nil
  | some offset =>
    refine writes_liftM_bind fun v hv => writes_store hb ?_ hframe
    cases value with
    | none => cases hv
    | some value =>
      cases hv
      exact hvalue

theorem writes_frameArgument (hb : b.Open) {frame : Var} (hframe : Below b.vars [frame])
    (field : FrameField) {c : Carrier} {values : List Var} (hvalues : Below b.vars values) :
    Writes (Thunk.frameArgument frame field c values) b fun _ _ code => Inert code := by
  unfold Thunk.frameArgument
  split
  · exact writes_storeWords hb hframe hvalues
  · refine (writes_spill hb hvalues).bind hb ?_
    rintro temp b₁ code₁ hb₁ hle₁ ⟨htemp, hinert⟩
    refine (writes_store hb₁ htemp.below (hframe.mono hle₁.length_le)).imp ?_
    exact fun _ _ _ _ hstored => hinert.append hstored
  · refine writes_liftM_bind fun v hv => writes_store hb (hvalues.of_subset ?_) hframe
    rintro _ (_ | ⟨_, ⟨⟩⟩)
    exact Attempt.mem_of_element hv

theorem writes_storeArguments {frame : Var} :
    ∀ (fields : List (FrameField × Carrier × List Var)) {b : Builder}, b.Open →
    Below b.vars [frame] → (∀ f ∈ fields, Below b.vars f.2.2) →
    Writes (Thunk.storeArguments frame fields) b fun _ _ code => Inert code := by
  intro fields
  induction fields with
  | nil => exact fun _ _ _ => writes_pure inert_nil
  | cons f rest ih =>
    intro b hb hframe hvalues
    obtain ⟨field, c, values⟩ := f
    rw [Thunk.storeArguments]
    refine (writes_frameArgument hb hframe field (hvalues _ List.mem_cons_self)).bind hb ?_
    rintro - b₁ code₁ hb₁ hle₁ hinert₁
    refine (ih hb₁ (hframe.mono hle₁.length_le) fun f hf =>
      (hvalues f (List.mem_cons_of_mem _ hf)).mono hle₁.length_le).imp ?_
    intro _ _ code₂ _ hinert₂
    exact hinert₁.append hinert₂

theorem writes_storeWitness (hb : b.Open) (f : Frame) {frame : Var} (hframe : Below b.vars [frame])
    {witness : Option (Var × Var)} (hwitness : Below b.vars (Parts.witnessList witness)) :
    Writes (Thunk.storeWitness f frame (witness.map fun w => ⟨w.1, w.2⟩)) b
      fun _ _ code => Inert code := by
  unfold Thunk.storeWitness
  split
  · refine writes_liftM_bind fun v hv => ?_
    cases witness with
    | none => cases hv
    | some w =>
      cases hv
      have hmetadata : Below b.vars [w.1] := hwitness.of_subset (by simp [Parts.witnessList])
      have htable : Below b.vars [w.2] := hwitness.of_subset (by simp [Parts.witnessList])
      refine (writes_store hb hmetadata hframe).bind hb ?_
      rintro - b₁ code₁ hb₁ hle₁ hinert₁
      refine (writes_store hb₁ (htable.mono hle₁.length_le) (hframe.mono hle₁.length_le)).imp ?_
      exact fun _ _ _ _ hinert₂ => hinert₁.append hinert₂
  · exact writes_pure inert_nil

/-- The code that forwards a call through a frame of its own. -/
theorem writes_asyncCall (hb : b.Open) (hs : s.convention = .async) {args : Arguments}
    {p : Parts Var} {uss : List (List Var)} (hargs : args.Recovers s p uss) (hp : p.Rest s)
    (hbelow : Below b.vars p.toFrame) (huss : HaveComponents b.varKinds s.carriers uss)
    {function : Var} (hfunction : Below b.vars [function]) :
    Writes (Thunk.asyncCall s s.frameLayout function args) b fun outcome b' code =>
      ∃ vs, outcome = s.outcome vs ∧ HaveKinds b'.varKinds vs s.resultScalars ∧
        sources code = [] ∧ CallsOnce s b'.varKinds code := by
  obtain ⟨herror, hindirect, hbindings, hreceiver, hwitness⟩ := Parts.below_toFrame hbelow
  rw [Thunk.asyncCall_eq hargs hp]
  refine Writes.bind hb (writes_define hb (below_nil _) rfl) ?_
  rintro frame b₁ _ hb₁ hle₁ ⟨-, hframe, rfl⟩
  refine Writes.bind hb₁ (writes_emit hb₁
    ((hreceiver.mono hle₁.length_le).append hframe.below) rfl) ?_
  rintro - b₂ _ hb₂ hle₂ ⟨-, rfl⟩
  have hgrown₂ := hle₁.trans hle₂
  refine (writes_storeWitness hb₂ _ (hframe.mono hle₂).below
    (hwitness.mono hgrown₂.length_le)).bind hb₂ ?_
  rintro - b₃ code₃ hb₃ hle₃ hinert₃
  have hgrown₃ := hgrown₂.trans hle₃
  have hframe₃ := hframe.mono (hle₂.trans hle₃)
  refine (writes_storeField hb₃ hframe₃.below _ _ (herror.mono hgrown₃.length_le)).bind hb₃ ?_
  rintro - b₄ code₄ hb₄ hle₄ hinert₄
  have hgrown₄ := hgrown₃.trans hle₄
  have hframe₄ := hframe₃.mono hle₄
  refine (writes_storeField hb₄ hframe₄.below _ _ (hindirect.mono hgrown₄.length_le)).bind hb₄ ?_
  rintro - b₅ code₅ hb₅ hle₅ hinert₅
  have hgrown₅ := hgrown₄.trans hle₅
  have hframe₅ := hframe₄.mono hle₅
  refine (writes_storeArguments _ hb₅ hframe₅.below fun f hf =>
    (huss.mono hgrown₅).below (List.of_mem_zip (List.of_mem_zip hf).2).2).bind hb₅ ?_
  rintro - b₆ code₆ hb₆ hle₆ hinert₆
  have hgrown₆ := hgrown₅.trans hle₆
  have hframe₆ := hframe₅.mono hle₆
  refine (writes_storeWords hb₆ hframe₆.below (hbindings.mono hgrown₆.length_le)).bind hb₆ ?_
  rintro - b₇ code₇ hb₇ hle₇ hinert₇
  have hframe₇ := hframe₆.mono hle₇
  refine Writes.bind hb₇ (writes_defineAll hb₇
    (fun _ => (hfunction.mono (hgrown₆.trans hle₇).length_le).append hframe₇.below) fun _ => rfl) ?_
  rintro results b₈ _ hb₈ hle₈ ⟨hresults, rfl⟩
  refine Writes.bind hb₈ (writes_loadWords _ hb₈ (hframe₇.mono hle₈).below) ?_
  rintro vs b₉ code₉ hb₉ hle₉ ⟨hvs, hinert₉⟩
  have hkinds : s.paramKinds = [.ptr] := Lowered.paramKinds_async hs
  have hnone : s.results = [] := by rw [Lowered.results, hs]
  refine writes_pure ⟨vs, rfl, hvs, ?_, function, [frame], results, ?_, ?_, ?_⟩
  · simp only [List.append_nil, sources_append, hinert₃.2, hinert₄.2, hinert₅.2, hinert₆.2,
      hinert₇.2, hinert₉.2]
    rfl
  · simp only [List.append_nil, calls_append, hinert₃.1, hinert₄.1, hinert₅.1, hinert₆.1,
      hinert₇.1, hinert₉.1]
    rfl
  · rw [hkinds]
    exact hframe₇.mono (hle₈.trans hle₉)
  · rw [hnone]
    exact hresults.mono hle₉

/-- An asynchronous thunk after its context was made. -/
theorem seals_forwardAsync (hb : b.Open) (hs : s.convention = .async)
    (hframe : s.frame = some s.frameLayout) {pool : Pool} {m : Method} {target : Attempt Target}
    (hcontext : Below b.vars [context]) :
    Seals (Thunk.attach s.frameLayout [context] >>= fun (convention, params) =>
        Thunk.forward pool target { method := m, own := s, forwarded := s } convention params)
      b fun kinds code terminator =>
      CallsOnce s kinds code ∧ TakesFields s context code ∧ terminator = .asyncExit := by
  rw [Thunk.forward_async hframe]
  refine Writes.seals hb (writes_emit hb hcontext rfl) ?_
  rintro - b₁ _ hb₁ hle₁ ⟨-, rfl⟩
  have hcontext₁ := hcontext.mono hle₁.length_le
  refine Writes.seals hb₁ (writes_ofFrame hb₁ s hcontext₁) ?_
  rintro args b₂ code₂ hb₂ hle₂ ⟨⟨p, uss, hargs, hrest, hbelow, huss⟩, hcalls₂, htaken⟩
  refine seals_liftM_bind fun t _ => ?_
  have hreceiver : Below b₂.vars [args.receiver] := by
    refine hbelow.of_subset ?_
    simp [hargs.receiver, Parts.toFrame]
  have hwitness : ∀ w ∈ args.witness, Below b₂.vars [w.table] := by
    intro w hw
    rw [hargs.witness, Option.mem_def, Option.map_eq_some_iff] at hw
    obtain ⟨w', hw', rfl⟩ := hw
    refine hbelow.of_subset ?_
    simp [Parts.toFrame, Parts.witnessList, hw']
  refine Writes.seals hb₂ (writes_resolve hb₂ pool m t hreceiver hwitness) ?_
  rintro function b₃ code₃ hb₃ hle₃ ⟨hfunction, hinert₃⟩
  refine Writes.seals hb₃ (writes_asyncCall hb₃ hs hargs hrest (hbelow.mono hle₃.length_le)
    (huss.mono hle₃) hfunction) ?_
  rintro _ b₄ code₄ hb₄ hle₄
    ⟨vs, rfl, hvs, hsources₄, callee, native, results, hcalls₄, hargs₄, hresults₄⟩
  have hcontext₄ := hcontext₁.mono (hle₂.trans (hle₃.trans hle₄)).length_le
  rw [Thunk.emitReturn_outcome hvs.length_eq]
  refine Writes.seals hb₄ (writes_storeWords hb₄ hcontext₄ hvs.below) ?_
  rintro - b₅ code₅ hb₅ hle₅ hinert₅
  refine seals_terminate hb₅ fun _ _ _ _ _ => ⟨?_, ?_, rfl⟩
  · refine ⟨callee, native, results, ?_, hargs₄.mono hle₅, hresults₄.mono hle₅⟩
    simp only [calls_append, hcalls₂, hinert₃.1, hcalls₄, hinert₅.1]
    rfl
  · have hentry : sources [.asyncEntry context s.frameLayout.size] = [] := rfl
    refine htaken.within hentry ?_
    simp only [sources_append, hinert₃.2, hsources₄, hinert₅.2]
    rfl

end Frame

/-! ### The whole thunk -/

namespace Thunk

/-- A function of one block that is fit to be the thunk of a method with this native
signature. -/
structure WellFormed (s : Lowered) (f : Function) (code : List Instr) (terminator : Terminator) :
    Prop where
  blocks : f.blocks = [⟨Function.entry, code, terminator⟩]
  params : f.params.map Param.kind = s.paramKinds
  paramKinds : HaveKinds f.varKinds (f.params.map Param.var) s.paramKinds
  /-- Every variable is defined once, as a parameter or by one instruction. -/
  defined : f.params.map Param.var ++ code.flatMap Instr.defs = List.range f.varKinds.length
  /-- Variables are read after they are defined. -/
  read : ∀ before i after, code = before ++ i :: after →
    ∀ v ∈ i.uses, v ∈ f.params.map Param.var ++ before.flatMap Instr.defs
  readAtEnd : ∀ v ∈ terminator.uses, v ∈ f.params.map Param.var ++ code.flatMap Instr.defs
  /-- There is one call, with arguments and results of the kinds of the signature. -/
  call : ∃ callee args results,
    code.filter Instr.isCall = [.call callee s.convention args results] ∧
      HaveKinds f.varKinds args s.paramKinds ∧ HaveKinds f.varKinds results s.results
  /-- Values are taken from the addresses of the indirect parameters, -/
  taken : List.Forall₂ (s.HoldsAddress f code) s.indirectParams
    (code.filterMap Instr.takeSource?)
  /-- and from each of them once. -/
  takenOnce : (code.filterMap Instr.takeSource?).Nodup
  leaves : (s.convention.isAsync = true ∧ terminator = .asyncExit) ∨
    (s.convention.isAsync = false ∧ ∃ vs, terminator = .ret vs ∧ HaveKinds f.varKinds vs s.results)

variable {pool : Pool} {target : Attempt Target} {m : Method} {s : Lowered} {symbol : String}
  {f : Function} {code : List Instr} {terminator : Terminator} {kinds : List Scalar}

/-- The variables of a function of one straight block. -/
theorem WellFormed.of_straight {convention : Convention}
    (hf : f = .oneBlock symbol convention s.paramKinds kinds code terminator)
    (hstraight : Straight s.paramKinds.length code (s.paramKinds ++ kinds).length)
    (hend : Below (s.paramKinds ++ kinds).length terminator.uses)
    (hcall : CallsOnce s (s.paramKinds ++ kinds) code)
    (htaken : List.Forall₂ (s.HoldsAddress f code) s.indirectParams (sources code))
    (honce : (sources code).Nodup)
    (hleaves : (s.convention.isAsync = true ∧ terminator = .asyncExit) ∨
      (s.convention.isAsync = false ∧
        ∃ vs, terminator = .ret vs ∧ HaveKinds (s.paramKinds ++ kinds) vs s.results)) :
    WellFormed s f code terminator := by
  have hparams : f.params
      = List.zipWith Param.mk (List.range' 0 s.paramKinds.length) s.paramKinds := by rw [hf]; rfl
  have hkinds : f.varKinds = s.paramKinds ++ kinds := by rw [hf]; rfl
  have hvars : f.params.map Param.var = List.range s.paramKinds.length := by
    rw [hparams, map_var_zipWith List.length_range', List.range_eq_range']
  have hdefined : f.params.map Param.var ++ code.flatMap Instr.defs
      = List.range f.varKinds.length := by
    rw [hvars, hkinds]
    exact hstraight.defs
  rw [← hkinds] at hend hcall hleaves
  refine ⟨by rw [hf]; rfl, ?_, ?_, hdefined, ?_, ?_, hcall, htaken, honce, hleaves⟩
  · rw [hparams, map_kind_zipWith List.length_range']
  · rw [hvars, hkinds, List.range_eq_range']
    exact (haveKinds_range' [] s.paramKinds).mono (List.prefix_append _ _)
  · intro before i after hcode v hv
    rw [hvars]
    exact hstraight.uses hcode v hv
  · intro v hv
    rw [hdefined, List.mem_range]
    exact hend v hv

/-- What a generated thunk looks like, from what its body looks like. -/
theorem oneBlock_of_function (body : List Var → Build Unit)
    {Q : List Scalar → List Instr → Terminator → Prop} {plan : ThunkPlan}
    (hemit : emit pool target plan = plan.own.paramKinds.mapM Builder.param >>= body)
    (hbody : ∀ b : Builder, b.Open → b.varKinds = plan.own.paramKinds →
      Seals (body (List.range' 0 plan.own.paramKinds.length)) b Q)
    (hf : function pool target plan symbol = .ok f) :
    ∃ kinds code terminator,
      f = .oneBlock symbol plan.method.convention plan.own.paramKinds kinds code terminator ∧
      Straight plan.own.paramKinds.length code (plan.own.paramKinds ++ kinds).length ∧
      Q (plan.own.paramKinds ++ kinds) code terminator := by
  unfold function at hf
  split at hf
  · next b hrun =>
    cases hf
    rw [hemit] at hrun
    exact (ends_sealed symbol plan.method.convention hbody).ok hrun
  · cases hf

/-- A generated thunk of an ordinary function or a coroutine. -/
theorem wellFormed_flat (hs : s.convention.isAsync = false) (hframe : s.frame = none)
    (hpacked : ∀ schema, s.result.passing = .direct schema → schema.Packed)
    (hf : function pool target { method := m, own := s, forwarded := s } symbol = .ok f) :
    ∃ code terminator, WellFormed s f code terminator := by
  have hkinds := Lowered.paramKinds_flat hs
  have hlen : s.paramKinds.length = s.flatParams.length := by rw [hkinds, List.length_map]
  obtain ⟨p, hp, hlist⟩ := Parts.exists_of_length s (List.range' 0 s.paramKinds.length)
    (by rw [List.length_range', hlen])
  have hnative : p.map (fun v => s.flatParams[v]?) = s.nativeParts.map some := by
    refine Parts.toList_inj (hp.map _) (s.fits_nativeParts.map _) ?_
    rw [Parts.toList_map, Parts.toList_map, hlist, Lowered.toList_nativeParts, hlen]
    exact map_getElem?_range' [] s.flatParams
  obtain ⟨kinds, code, terminator, hone, hstraight, hcall, hsub, htaken, vs, rfl, hvs⟩ :=
    oneBlock_of_function (fun params => forward pool target
        { method := m, own := s, forwarded := s } (flatPlan s) (Explosion.ofList params))
      (by simp only [emit, enter_flat hs, bind_assoc, pure_bind])
      (fun b hb hvars => by
        rw [← hlist]
        refine seals_forwardFlat hb hs hframe hp hnative ?_ hpacked
        exact ⟨[], by rw [List.append_nil, hvars, hkinds]⟩) hf
  refine ⟨code, .ret vs, .of_straight hone hstraight hvs.below hcall (htaken.imp ?_) ?_
    (Or.inr ⟨hs, vs, rfl, hvs⟩)⟩
  · intro index v hrole
    refine .native v ?_ ?_
    · rwa [Lowered.params, if_neg (by rw [hs]; decide)]
    · have hkind : s.paramKinds[v]? = some .ptr := by
        rw [hkinds, List.getElem?_map, hrole]
        rfl
      have hlt : v < s.paramKinds.length := (List.getElem?_eq_some_iff.mp hkind).1
      rw [hone, Function.oneBlock, List.getElem?_zipWith, List.getElem?_range' hlt, hkind]
      simp
  · refine (hlist ▸ List.nodup_range' : p.toList.Nodup).sublist (hsub.trans ?_)
    simp only [Parts.toList, List.append_assoc]
    exact ((List.sublist_append_left _ _).trans (List.sublist_append_right _ _)).trans
      (List.sublist_append_right _ _)

/-- A generated thunk of an asynchronous function. -/
theorem wellFormed_async (hs : s.convention = .async) (hframe : s.frame = some s.frameLayout)
    (hf : function pool target { method := m, own := s, forwarded := s } symbol = .ok f) :
    ∃ code terminator, WellFormed s f code terminator := by
  have hkinds := Lowered.paramKinds_async hs
  obtain ⟨kinds, code, terminator, hone, hstraight, hcall, htaken, rfl⟩ :=
    oneBlock_of_function (Q := fun kinds code terminator =>
        CallsOnce s kinds code ∧ TakesFields s 0 code ∧ terminator = .asyncExit)
      (fun params => attach s.frameLayout params >>= fun (convention, params) =>
        forward pool target { method := m, own := s, forwarded := s } convention params)
      (by simp only [emit, enter_async hs hframe, bind_assoc])
      (fun b hb hvars => by
        rw [hkinds]
        refine seals_forwardAsync hb hs hframe (below_singleton ?_)
        simp [Builder.vars, hvars, hkinds]) hf
  refine ⟨code, .asyncExit, .of_straight hone hstraight (below_nil _) hcall
    (htaken.2.imp ?_) ?_ (Or.inl ⟨by rw [hs]; rfl, rfl⟩)⟩
  · rintro index v ⟨offset, hfield, hload⟩
    refine .field 0 s.frameLayout offset ?_ hframe hfield hload
    rw [hone, Function.oneBlock, hkinds]
    rfl
  · have hnodup := List.nodup_range (n := (s.paramKinds ++ kinds).length)
    rw [← hstraight.defs] at hnodup
    exact hnodup.sublist (htaken.1.trans (List.sublist_append_right _ _))

/-- Every thunk that is generated for the native signature of a method is well formed. -/
theorem wellFormed_of_function {l : Layout} {p : Pool} (hl : l.frameEdits = [])
    (hs : l.lower p m = .ok s)
    (hf : function pool target { method := m, own := s, forwarded := s } symbol = .ok f) :
    ∃ code terminator, WellFormed s f code terminator := by
  rcases Layout.frame_of_lower hl hs with ⟨hflat, hnone⟩ | ⟨hasync, hframe, -⟩
  · refine wellFormed_flat hflat hnone (fun schema hschema => ?_) hf
    obtain ⟨-, hpassing⟩ := Layout.carrier_eq_ok (Layout.lowers_of_lower hs).result
    rw [hschema] at hpassing
    exact (Layout.schema_of_passing hpassing).2
  · exact wellFormed_async (Convention.eq_async hasync) hframe hf

end Thunk

end Dispatch
