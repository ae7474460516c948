import Dispatch.Proofs.Thunk.Async

/-!
# The frame that a thunk attaches

An asynchronous thunk attaches its context frame, and says how large the frame must be,
once and before anything else.  No other building step attaches a frame, so the size that
the finished function asks for is the size of the frame in the signature of the thunk.

## Main definitions

* `Function.frameSizes` — the sizes of the frames that a function attaches.
* `Plain x` — the building step `x` attaches no frame.

## Main results

* `Thunk.plain_forward` — nothing after the entry attaches a frame.
* `Thunk.frameSizes_of_function` — the frame that a thunk attaches.
-/

namespace Dispatch

/-- The size that a context frame must have to be attached. -/
def Instr.frameSize? : Instr → Option Nat
  | .asyncEntry _ bytes => some bytes
  | _ => none

/-- The sizes of the frames that a function attaches, block by block. -/
def Function.frameSizes (f : Function) : List Nat := f.instructions.filterMap Instr.frameSize?

/-- The sizes of the frames that a block under construction attaches. -/
def Draft.frameSizes (d : Draft) : List Nat := d.body.filterMap Instr.frameSize?

namespace Builder

variable {b : Builder}

/-- The sizes of the frames that a function under construction attaches. -/
def frameSizes (b : Builder) : List Nat := (b.drafts.map Draft.frameSizes).flatten

theorem frameSizes_finish (b : Builder) : b.finish.frameSizes = b.frameSizes := by
  have hbodies : b.finish.blocks.map Block.body = b.drafts.map Draft.body := List.map_map
  rw [Function.frameSizes, Function.instructions, List.flatMap_def, hbodies,
    List.filterMap_flatten, List.map_map]
  rfl

/-- A change of the current block that attaches nothing. -/
theorem frameSizes_modifyDraft {f : Draft → Draft}
    (hf : ∀ d, (f d).frameSizes = d.frameSizes) : (b.modifyDraft f).frameSizes = b.frameSizes := by
  rw [frameSizes, frameSizes, modifyDraft]
  congr 1
  refine List.ext_getElem? fun k => ?_
  rw [List.getElem?_map, List.getElem?_map, List.getElem?_modify]
  cases b.drafts[k]? with
  | none => rfl
  | some d =>
    by_cases hk : b.current = k
    · simp [hk, hf]
    · simp [hk]

end Builder

/-! ### Steps that attach no frame -/

/-- If the building step succeeds, it has attached no frame. -/
def Plain {α : Type} (x : Build α) : Prop :=
  ∀ b : Builder, Step.Ends x b (fun _ b' => b'.frameSizes = b.frameSizes) fun _ _ => True

section Plain

variable {α β : Type} {x : Build α} {f : α → Build β}

theorem Plain.bind (hx : Plain x) (hf : ∀ a, Plain (f a)) : Plain (x >>= f) := by
  intro b
  rw [Step.ends_bind]
  refine (hx b).imp (fun a b' h => ?_) fun _ _ h => h
  exact (hf a b').imp (fun _ _ h' => h'.trans h) fun _ _ h' => h'

theorem plain_pure (a : α) : Plain (pure a : Build α) := fun _ => rfl

theorem plain_throw (fault : Fault) : Plain (throw fault : Build α) := fun _ => trivial

theorem plain_liftM (attempt : Attempt α) : Plain (liftM attempt : Build α) := fun _ =>
  Step.ends_liftM.mpr ⟨fun _ _ => rfl, fun _ _ => trivial⟩

theorem plain_ite {c : Prop} [Decidable c] {y : Build α} (hx : Plain x) (hy : Plain y) :
    Plain (if c then x else y) := by
  split
  · exact hx
  · exact hy

/-- A check that may give the function up. -/
theorem plain_guard {c : Prop} [Decidable c] {fault : Fault} {k : PUnit → Build α}
    (hk : Plain (k ⟨⟩)) : Plain (if c then (throw fault : Build PUnit) >>= k else k ⟨⟩) := by
  split
  · exact fun _ => trivial
  · exact hk

theorem plain_mapM {g : β → Build α} (l : List β) (h : ∀ b, Plain (g b)) : Plain (l.mapM g) := by
  induction l with
  | nil =>
    rw [List.mapM_nil]
    exact plain_pure []
  | cons b rest ih =>
    rw [List.mapM_cons]
    exact (h b).bind fun _ => ih.bind fun _ => plain_pure _

theorem plain_fresh (kind : Scalar) : Plain (Builder.fresh kind) := fun _ => rfl

theorem plain_emit {i : Instr} (hi : i.frameSize? = none) : Plain (Builder.emit i) := by
  intro b
  rw [Builder.emit, Step.ends_bind, Step.ends_get]
  split
  · trivial
  · refine Builder.frameSizes_modifyDraft fun d => ?_
    simp [Draft.frameSizes, List.filterMap_append, hi]

theorem plain_terminate (terminator : Terminator) : Plain (Builder.terminate terminator) := by
  intro b
  rw [Builder.terminate, Step.ends_bind, Step.ends_get]
  split
  · trivial
  · exact Builder.frameSizes_modifyDraft fun _ => rfl

theorem plain_define (kind : Scalar) {instr : Var → Instr}
    (h : ∀ v, (instr v).frameSize? = none) : Plain (Builder.define kind instr) :=
  (plain_fresh kind).bind fun v => (plain_emit (h v)).bind fun _ => plain_pure v

theorem plain_defineAll (kinds : List Scalar) {instr : List Var → Instr}
    (h : ∀ vs, (instr vs).frameSize? = none) : Plain (Builder.defineAll kinds instr) :=
  (plain_mapM kinds plain_fresh).bind fun vs => (plain_emit (h vs)).bind fun _ => plain_pure vs

theorem plain_load (kind : Scalar) (addr : Var) (offset : Nat) :
    Plain (Builder.load kind addr offset) := plain_define _ fun _ => rfl

theorem plain_store (value addr : Var) (offset : Nat) : Plain (Builder.store value addr offset) :=
  plain_emit rfl

end Plain

/-! ### The arguments -/

namespace Arguments

theorem plain_loadWords (addr : Var) (kinds : List Scalar) (offset : Nat) :
    Plain (loadWords addr offset kinds) := by
  induction kinds generalizing offset with
  | nil => exact plain_pure []
  | cons kind rest ih =>
    exact (plain_load _ _ _).bind fun _ => (ih _).bind fun _ => plain_pure _

theorem plain_loadField (context : Var) (offset : Option Nat) :
    Plain (loadField context offset) := by
  cases offset with
  | none => exact plain_pure none
  | some offset => exact (plain_load _ _ _).bind fun _ => plain_pure _

theorem plain_frameWitness (f : Frame) (context : Var) : Plain (frameWitness f context) := by
  unfold frameWitness
  split
  · exact (plain_load _ _ _).bind fun _ => (plain_load _ _ _).bind fun _ => plain_pure _
  · exact plain_pure none
  · exact plain_throw _

theorem plain_frameParam (context : Var) (index : Nat) (field : FrameField) (c : Carrier) :
    Plain (frameParam context index field c) := by
  unfold frameParam
  split
  · exact plain_loadWords _ _ _
  · exact (plain_load _ _ _).bind fun _ => plain_defineAll _ fun _ => rfl
  · exact (plain_load _ _ _).bind fun _ => plain_pure _
  · exact plain_throw _

theorem plain_frameParams (context : Var) (fields : List (FrameField × Carrier)) (index : Nat) :
    Plain (frameParams context index fields) := by
  induction fields generalizing index with
  | nil => exact plain_pure []
  | cons field rest ih =>
    exact (plain_frameParam _ _ _ _).bind fun _ => (ih _).bind fun _ => plain_pure _

theorem plain_ofFrame (s : Lowered) (f : Frame) (installed : Option Var) (context : Var) :
    Plain (ofFrame s f installed context) := by
  unfold ofFrame
  refine (plain_load _ _ _).bind fun _ => (plain_frameWitness _ _).bind fun _ => ?_
  apply plain_guard
  refine (plain_loadField _ _).bind fun _ => (plain_loadField _ _).bind fun _ => ?_
  apply plain_guard
  exact (plain_frameParams _ _ _).bind fun _ => (plain_loadWords _ _ _).bind fun _ =>
    (plain_liftM _).bind fun _ => plain_pure _

end Arguments

/-! ### The call -/

theorem Target.plain_resolve (p : Pool) (m : Method) (args : Arguments) (target : Target) :
    Plain (target.resolve p m args) := by
  cases target with
  | witness index =>
    rw [resolve]
    cases args.witness with
    | none => exact plain_throw _
    | some w => exact plain_define _ fun _ => rfl
  | virtual slot signing =>
    have hmetadata : Plain (emitMetadata p m args.receiver) :=
      (plain_liftM _).bind fun _ => plain_ite (plain_pure _) (plain_define _ fun _ => rfl)
    rw [resolve_virtual]
    refine hmetadata.bind fun _ => Plain.bind (plain_define _ fun _ => rfl) fun _ => ?_
    cases signing with
    | none => exact plain_pure _
    | some signing => exact plain_define _ fun _ => rfl

namespace Thunk

theorem plain_storeWords (addr : Var) (values : List Var) (offset : Nat) :
    Plain (storeWords addr offset values) := by
  induction values generalizing offset with
  | nil => exact plain_pure ()
  | cons value rest ih => exact (plain_store _ _ _).bind fun _ => ih _

theorem plain_spill (values : List Var) : Plain (spill values) :=
  (plain_liftM _).bind fun _ => (plain_define _ fun _ => rfl).bind fun _ =>
    (plain_storeWords _ _ _).bind fun _ => plain_pure _

theorem plain_storeField (frame : Var) (missing : Trap) (value : Option Var)
    (offset : Option Nat) : Plain (storeField frame missing value offset) := by
  cases offset with
  | none => exact plain_pure ()
  | some offset => exact (plain_liftM _).bind fun _ => plain_store _ _ _

theorem plain_storeWitness (f : Frame) (frame : Var) (witness : Option WitnessVars) :
    Plain (storeWitness f frame witness) := by
  unfold storeWitness
  split
  · exact (plain_liftM _).bind fun _ => (plain_store _ _ _).bind fun _ => plain_store _ _ _
  · exact plain_pure ()

theorem plain_frameArgument (frame : Var) (field : FrameField) (c : Carrier) (values : List Var) :
    Plain (frameArgument frame field c values) := by
  unfold frameArgument
  split
  · exact plain_storeWords _ _ _
  · exact (plain_spill _).bind fun _ => plain_store _ _ _
  · exact (plain_liftM _).bind fun _ => plain_store _ _ _

theorem plain_frameArguments (s : Lowered) (params : List (List Var)) (frame : Var)
    (fields : List FrameField) (index : Nat) :
    Plain (frameArguments s params frame index fields) := by
  induction fields generalizing index with
  | nil => exact plain_pure ()
  | cons field rest ih =>
    exact (plain_liftM _).bind fun _ => (plain_liftM _).bind fun _ =>
      (plain_frameArgument _ _ _ _).bind fun _ => ih _

theorem plain_leftIn (s : Lowered) (f : Frame) (frame : Var) : Plain (leftIn s f frame) := by
  refine plain_ite (plain_pure _) ?_
  split
  · exact (Arguments.plain_loadWords _ _ _).bind fun _ => plain_pure _
  · exact plain_throw _
  · exact plain_pure _

theorem plain_asyncCall (s : Lowered) (f : Frame) (function : Var) (args : Arguments) :
    Plain (asyncCall s f function args) :=
  (plain_liftM _).bind fun _ => (plain_define _ fun _ => rfl).bind fun _ =>
    (plain_store _ _ _).bind fun _ => (plain_storeWitness _ _ _).bind fun _ =>
      (plain_storeField _ _ _ _).bind fun _ => (plain_storeField _ _ _ _).bind fun _ =>
        (plain_frameArguments _ _ _ _ _).bind fun _ => (plain_storeWords _ _ _).bind fun _ =>
          (plain_defineAll _ fun _ => rfl).bind fun _ => plain_leftIn _ _ _

theorem plain_emitReturn (own : Lowered) (context : Var) (frame : Frame) (outcome : CallOutcome) :
    Plain (emitReturn own (.async context frame) outcome) := by
  cases outcome with
  | memory => exact plain_terminate _
  | coroutine results => exact plain_terminate _
  | explosion results =>
    rw [emitReturn]
    split
    · exact (plain_liftM _).bind fun _ => (plain_storeWords _ _ _).bind fun _ => plain_terminate _
    · exact plain_terminate _

/-! ### The whole function -/

variable {p : Pool} {target : Attempt Target} {m : Method} {s : Lowered} {frame : Frame}

/-- Once the frame is attached, a thunk attaches no other. -/
theorem plain_forward (hframe : s.frame = some frame) (context : Var) (params : Explosion) :
    Plain (forward p target { method := m, own := s, forwarded := s } (.async context frame)
      params) := by
  simp only [forward, prepare, forwardCall, hframe]
  exact (Arguments.plain_ofFrame _ _ _ _).bind fun _ => (plain_liftM _).bind fun _ =>
    (Target.plain_resolve _ _ _ _).bind fun _ => (plain_asyncCall _ _ _ _).bind fun _ =>
      plain_emitReturn _ _ _ _

/-- An asynchronous thunk attaches one frame, of the size that its signature says. -/
theorem frameSizes_of_function {symbol : String} {f : Function} (hs : s.convention = .async)
    (hframe : s.frame = some frame)
    (h : function p target { method := m, own := s, forwarded := s } symbol = .ok f) :
    f.frameSizes = [frame.size] := by
  have hends : Step.Ends (emit p target { method := m, own := s, forwarded := s })
      (Builder.new symbol m.convention) (fun _ b => b.frameSizes = [frame.size])
      fun _ _ => True := by
    rw [emit, enter_async hs hframe, Lowered.paramKinds_async hs]
    -- the parameter comes first, in an entry block that is open and empty
    refine Step.ends_bind.mpr (Step.ends_bind.mpr (Step.ends_of_ok (run_params _ _) ?_))
    have hopen := open_withParams symbol m.convention [.ptr]
    refine Step.ends_bind.mpr (Step.ends_of_ok (run_emit hopen _) ?_)
    exact (plain_forward hframe _ _ _).imp (fun _ b hb => hb) fun _ _ h => h
  unfold function at h
  split at h
  · next b hrun =>
    cases h
    rw [Builder.frameSizes_finish]
    exact hends.ok hrun
  · cases h

end Thunk

end Dispatch
