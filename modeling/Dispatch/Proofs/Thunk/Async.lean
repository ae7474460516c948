import Dispatch.Proofs.Frames
import Dispatch.Proofs.Thunk.Flat

/-!
# What asynchronous thunks do

The code of an asynchronous thunk reads its caller's frame, loads the implementation,
fills a frame of its own and calls.  Afterwards it copies the results from its own
frame to the caller's.  `Thunk.forwardAsync` says so as a step of the machine, and the
code of every such thunk does exactly that, faults included.

## Main definitions

* `World.fetchFrame`, `World.fillFrame` — reading and filling a frame.
* `Thunk.forwardAsync` — what an asynchronous thunk does.

## Main results

* `Thunk.asyncCall_eq` — everything that the call asks for is there.
* `Thunk.function_async` — running an asynchronous thunk is `Thunk.forwardAsync`.
-/

namespace Dispatch

open Registers World

/-! ### Frames in running code -/

namespace World

/-- Load a word at a byte offset from a base. -/
def loadAt (base : Word) (offset : Nat) : Run Word := do
  read (← addWord base (UInt64.ofNat offset))

/-- Store a word at a byte offset from a base. -/
def storeAt (base : Word) (offset : Nat) (value : Word) : Run Unit := do
  write (← addWord base (UInt64.ofNat offset)) value

/-- Load consecutive words, the first at a byte offset from a base. -/
def loadAll (base : Word) (offset : Nat) : Nat → Run (List Word)
  | 0 => return []
  | count + 1 => do
    let first ← loadAt base offset
    let others ← loadAll base (offset + wordBytes) count
    return first :: others

/-- Fetch a parameter whose field starts at a word of a frame. -/
def fetchParam (frame : Word) (start : Nat) : Passing → Run ArgValue
  | .direct schema => do return .value (← loadAll frame (8 * start) schema.components.length)
  | .indirect schema => do
    let address ← loadAt frame (8 * start)
    return .value (← withMemory (Memory.takeWords address schema.components.length))
  | .address => do return .address (← loadAt frame (8 * start))

/-- Fetch parameters, the first of which starts at a word of a frame. -/
def fetchParams (frame : Word) (start : Nat) : List Carrier → Run (List ArgValue)
  | [] => return []
  | c :: rest => do
    let first ← fetchParam frame start c.passing
    let others ← fetchParams frame (start + c.passing.frameWords) rest
    return first :: others

/-- Fetch everything that a caller put into a frame: the arguments, and the parts
other than parameters. -/
def fetchFrame (s : Lowered) (frame : Word) : Run (Parts Word × List ArgValue) := do
  let receiver ← loadAt frame (8 * s.receiverAt)
  let witness ← readWitness s.frameLayout frame
  let errorSlot ← readField frame s.frameLayout.errorSlot
  let indirectReturn ← readField frame s.frameLayout.indirectReturn
  let args ← fetchParams frame s.paramsAt s.carriers
  let bindings ← loadAll frame (8 * s.bindingsAt) s.bindingCount
  return (⟨none, indirectReturn, [], bindings, receiver, errorSlot, witness⟩, args)

/-- Put an argument into its field; the answer is where it was spilled to. -/
def fillParam (frame : Word) (start : Nat) (arg : ArgValue) : Passing → Run (List Word)
  | .direct _ => do
    storeAll frame (8 * start) arg.words
    return []
  | .indirect _ => do
    let spilled ← spill arg.words
    storeAt frame (8 * start) spilled.1
    return spilled.2
  | .address => do
    storeAt frame (8 * start) arg.scalar
    return []

/-- Put arguments into their fields, the first of which starts at a word of a frame. -/
def fillParams (frame : Word) (start : Nat) : List (Carrier × ArgValue) → Run (List Word)
  | [] => return []
  | (c, arg) :: rest => do
    let spilled ← fillParam frame start arg c.passing
    let spills ← fillParams frame (start + c.passing.frameWords) rest
    return spilled ++ spills

/-- Fill a frame. -/
def fillFrame (s : Lowered) (frame : Word) (parts : Parts Word) (args : List ArgValue) :
    Run Unit := do
  storeAt frame (8 * s.receiverAt) parts.receiver
  writeField frame s.frameLayout.selfMetadata (parts.witness.map (·.1))
  writeField frame s.frameLayout.selfWitnessTable (parts.witness.map (·.2))
  writeField frame s.frameLayout.errorSlot parts.errorSlot
  writeField frame s.frameLayout.indirectReturn parts.indirectReturn
  let _ ← fillParams frame s.paramsAt (s.carriers.zip args)
  storeAll frame (8 * s.bindingsAt) parts.bindings

/-- Note that the running function was suspended. -/
def suspend : Run Unit :=
  modify fun w => { w with machine := { w.machine with suspensions := w.machine.suspensions + 1 } }

end World

namespace Thunk

/-- Call an asynchronous function with a frame. -/
def callFrame (call : Caller) (function frame : Word) : Run Unit := do
  suspend
  let results ← call function [frame]
  if results.length = 0 then return () else fail (.arity "call results" 0 results.length)

/-- What an asynchronous thunk does. -/
def forwardAsync (call : Caller) (p : Pool) (m : Method) (target : Target) (s : Lowered)
    (frame : Word) : Run (List Word) := do
  checkFrame frame s.frameLayout.size
  let fetched ← fetchFrame s frame
  let function ← target.load p m fetched.1.receiver fetched.1.witness
  let own ← withMemory (Memory.alloc s.frameLayout.size)
  fillFrame s own fetched.1 fetched.2
  callFrame call function own
  let results ← loadAll own (8 * s.resultsAt) s.resultScalars.length
  storeAll frame (8 * s.resultsAt) results
  return []

end Thunk

/-! ### Reading a frame in code -/

section Emission

variable {b : Builder} {E : Prop}

theorem emits_load (hb : b.Open) (kind : Scalar) (addr : Var) (offset : Nat) :
    Emits (Builder.load kind addr offset) b (fun (v : Nat) b' code => v < b'.vars ∧
      ∀ (call : Caller) (r : Registers) (w : World),
        Step.Matches (steps call r code) (loadAt (r.value addr) offset) w
          fun word r' => Agree b.vars r r' ∧ r'.value v = word) E := by
  refine (emits_define hb _ _).imp ?_
  rintro v b₁ code ⟨rfl, hv, rfl⟩
  refine ⟨by omega, fun call r w => matches_set ?_ (Nat.le_refl _)⟩
  simp only [step, loadAt, bind_assoc]

theorem emits_loadField (hb : b.Open) (context : Var) (offset : Option Nat) :
    Emits (Arguments.loadField context offset) b (fun o b' code =>
      o.isSome = offset.isSome ∧ Below b'.vars o.toList ∧
      ∀ (call : Caller) (r : Registers) (w : World),
        Step.Matches (steps call r code) (readField (r.value context) offset) w
          fun word r' => Agree b.vars r r' ∧ o.map r'.value = word) E := by
  cases offset with
  | none =>
    refine emits_pure ⟨rfl, fun v hv => (by cases hv), fun call r w => ?_⟩
    exact Step.matches_pure ⟨.refl _ _, rfl⟩
  | some offset =>
    rw [Arguments.loadField]
    refine (emits_load hb _ _ _).bind hb ?_
    rintro v b₁ code hb₁ - ⟨hv, hmatch⟩
    refine emits_pure ⟨rfl, below_singleton hv, fun call r w => ?_⟩
    rw [List.append_nil]
    have heq : readField (r.value context) (some offset)
        = loadAt (r.value context) offset >>= fun word => pure (some word) := by
      simp only [readField, loadAt, bind_assoc]
    rw [heq]
    refine (hmatch call r w).map some ?_
    rintro word r' ⟨hagree, rfl⟩
    exact ⟨hagree, rfl⟩

theorem emits_loadWords (kinds : List Scalar) (addr : Nat) :
    ∀ {b : Builder} {offset : Nat}, b.Open → addr < b.vars →
    Emits (Arguments.loadWords addr offset kinds) b (fun vs b' code =>
      vs.length = kinds.length ∧ Below b'.vars vs ∧
      ∀ (call : Caller) (r : Registers) (w : World),
        Step.Matches (steps call r code) (loadAll (r.value addr) offset kinds.length) w
          fun words r' => Agree b.vars r r' ∧ r'.all vs = words) E := by
  induction kinds with
  | nil =>
    intro b offset hb haddr
    refine emits_pure ⟨rfl, fun v hv => (by cases hv), fun call r w => ?_⟩
    exact Step.matches_pure ⟨.refl _ _, rfl⟩
  | cons kind rest ih =>
    intro b offset hb haddr
    rw [Arguments.loadWords]
    refine (emits_load hb _ _ _).bind hb ?_
    rintro v b₁ code₁ hb₁ hle₁ ⟨hv, hmatch₁⟩
    refine (ih hb₁ (by omega)).bind hb₁ ?_
    rintro vs b₂ code₂ hb₂ hle₂ ⟨hlen, hvs, hmatch₂⟩
    refine emits_pure ⟨by simp [hlen], ?_, fun call r w => ?_⟩
    · exact (below_singleton (Nat.lt_of_lt_of_le hv hle₂)).append hvs
    · rw [List.append_nil, List.length_cons, loadAll]
      refine matches_steps_append (hmatch₁ call r w) ?_
      rintro word r₁ w₁ - ⟨hagree₁, rfl⟩
      rw [← hagree₁ addr haddr]
      refine (hmatch₂ call r₁ w₁).map (r₁.value v :: ·) ?_
      rintro words r₂ ⟨hagree₂, rfl⟩
      exact ⟨hagree₁.trans hagree₂ hle₁, by rw [all_cons, hagree₂ v hv]⟩

theorem emits_frameWitness (hb : b.Open) (s : Lowered) {context : Nat} (hcontext : context < b.vars) :
    Emits (Arguments.frameWitness s.frameLayout context) b (fun o b' code =>
      o.isSome = s.witness ∧ Below b'.vars (o.toList.flatMap fun v => [v.metadata, v.table]) ∧
      ∀ (call : Caller) (r : Registers) (w : World),
        Step.Matches (steps call r code) (readWitness s.frameLayout (r.value context)) w
          fun words r' => Agree b.vars r r' ∧
            o.map (fun v => (r'.value v.metadata, r'.value v.table)) = words) E := by
  unfold Arguments.frameWitness readWitness
  cases hs : s.witness with
  | false =>
    simp only [Lowered.frameLayout, hs, Bool.false_eq_true, if_false]
    refine emits_pure ⟨rfl, fun v hv => (by cases hv), fun call r w => ?_⟩
    exact Step.matches_pure ⟨.refl _ _, rfl⟩
  | true =>
    simp only [Lowered.frameLayout, hs, if_true]
    refine (emits_load hb _ _ _).bind hb ?_
    rintro v b₁ code₁ hb₁ hle₁ ⟨hv, hmatch₁⟩
    refine (emits_load hb₁ _ _ _).bind hb₁ ?_
    rintro v' b₂ code₂ hb₂ hle₂ ⟨hv', hmatch₂⟩
    refine emits_pure ⟨rfl, ?_, fun call r w => ?_⟩
    · exact (below_singleton (Nat.lt_of_lt_of_le hv hle₂)).append (below_singleton hv')
    · rw [List.append_nil, ← bind_assoc]
      refine matches_steps_append (hmatch₁ call r w) ?_
      rintro word r₁ w₁ - ⟨hagree₁, rfl⟩
      rw [← bind_assoc, ← hagree₁ context hcontext]
      refine (hmatch₂ call r₁ w₁).map (fun table => some (r₁.value v, table)) ?_
      rintro word r₂ ⟨hagree₂, rfl⟩
      exact ⟨hagree₁.trans hagree₂ hle₁, by rw [Option.map_some, hagree₂ v hv]⟩

theorem emits_frameParam (hb : b.Open) {context : Nat} (hcontext : context < b.vars)
    (start index : Nat) (c : Carrier) :
    Emits (Arguments.frameParam context index (FrameField.ofPassing start c.passing) c) b
      (fun vs b' code => vs.length = c.passing.width ∧ Below b'.vars vs ∧
        ∀ (call : Caller) (r : Registers) (w : World),
          Step.Matches (steps call r code) (fetchParam (r.value context) start c.passing) w
            fun arg r' => Agree b.vars r r' ∧ r'.all vs = arg.words ∧ arg.Fits c.passing) E := by
  unfold Arguments.frameParam
  cases hp : c.passing with
  | direct schema =>
    simp only [FrameField.ofPassing]
    refine (emits_loadWords _ _ hb hcontext).imp ?_
    rintro vs b₁ code ⟨hlen, hvs, hmatch⟩
    refine ⟨hlen, hvs, fun call r w => (hmatch call r w).map ArgValue.value ?_⟩
    rintro words r' ⟨hagree, hall⟩
    have hcount : words.length = schema.components.length := by rw [← hall, length_all, hlen]
    exact ⟨hagree, hall, hcount⟩
  | indirect schema =>
    simp only [FrameField.ofPassing]
    refine (emits_load hb _ _ _).bind hb ?_
    rintro v b₁ code₁ hb₁ hle₁ ⟨hv, hmatch₁⟩
    refine (emits_defineAll hb₁ schema.components _).imp ?_
    rintro vs b₂ code₂ ⟨rfl, hv₂, rfl⟩
    refine ⟨by simp [Passing.width], by rw [hv₂]; exact below_range' _ _, fun call r w => ?_⟩
    rw [fetchParam]
    refine matches_steps_append (hmatch₁ call r w) ?_
    rintro word r₁ w₁ - ⟨hagree₁, rfl⟩
    rw [steps_singleton]
    refine (matches_loadTake v schema.components.length b₁.vars).map ArgValue.value ?_
    rintro words r' ⟨hagree₂, hall, hlen⟩
    exact ⟨hagree₁.trans hagree₂ hle₁, hall, hlen⟩
  | address =>
    simp only [FrameField.ofPassing]
    refine (emits_load hb _ _ _).bind hb ?_
    rintro v b₁ code₁ hb₁ hle₁ ⟨hv, hmatch₁⟩
    refine emits_pure ⟨rfl, below_singleton hv, fun call r w => ?_⟩
    rw [List.append_nil]
    refine (hmatch₁ call r w).map ArgValue.address ?_
    rintro word r' ⟨hagree, rfl⟩
    exact ⟨hagree, rfl, trivial⟩

theorem emits_frameParams {context : Nat} : ∀ (carriers : List Carrier) (start index : Nat)
    {b : Builder}, b.Open → context < b.vars →
    Emits (Arguments.frameParams context index ((frameFields start carriers).zip carriers)) b
      (fun vs b' code => ∃ uss : List (List Var), vs = uss.flatten ∧
        uss.map List.length = carriers.map (fun c => c.passing.width) ∧ Below b'.vars vs ∧
        ∀ (call : Caller) (r : Registers) (w : World),
          Step.Matches (steps call r code) (fetchParams (r.value context) start carriers) w
            fun args r' => Agree b.vars r r' ∧ uss.map r'.all = args.map ArgValue.words ∧
              Shaped carriers args) E := by
  intro carriers
  induction carriers with
  | nil =>
    intro start index b hb hcontext
    refine emits_pure ⟨[], rfl, rfl, fun v hv => (by cases hv), fun call r w => ?_⟩
    exact Step.matches_pure ⟨.refl _ _, rfl, trivial⟩
  | cons c cs ih =>
    intro start index b hb hcontext
    rw [frameFields, List.zip_cons_cons, Arguments.frameParams]
    refine (emits_frameParam hb hcontext start index c).bind hb ?_
    rintro us b₁ code₁ hb₁ hle₁ ⟨hwidth, hus, hmatch₁⟩
    refine (ih _ _ hb₁ (by omega)).bind hb₁ ?_
    rintro _ b₂ code₂ hb₂ hle₂ ⟨uss, rfl, hwidths, huss, hmatch₂⟩
    refine emits_pure ⟨us :: uss, rfl, by simp [hwidth, hwidths], (hus.mono hle₂).append huss,
      fun call r w => ?_⟩
    rw [List.append_nil, fetchParams]
    refine matches_steps_append (hmatch₁ call r w) ?_
    rintro arg r₁ w₁ - ⟨hagree₁, hval, hfits⟩
    rw [← hagree₁ context hcontext]
    refine (hmatch₂ call r₁ w₁).map (arg :: ·) ?_
    rintro args r₂ ⟨hagree₂, hvals, hshaped⟩
    refine ⟨hagree₁.trans hagree₂ hle₁, ?_, hfits, hshaped⟩
    rw [List.map_cons, List.map_cons, hvals, hagree₂.all_eq hus, hval]

/-- The parts of a frame, apart from the parameters, that the signature asks for. -/
structure Parts.Rest {α : Type} (s : Lowered) (p : Parts α) : Prop where
  resume : p.resumeBuffer = none
  params : p.params = []
  indirect : p.indirectReturn.isSome = s.hasIndirectReturn
  bindings : p.bindings.length = s.bindingCount
  error : p.errorSlot.isSome = s.throws
  witness : p.witness.isSome = s.witness

/-- A frame has a field for the error slot only if there is an error slot. -/
theorem Parts.Rest.error_field {α : Type} {s : Lowered} {p : Parts α} (hp : p.Rest s)
    (h : s.frameLayout.errorSlot.isSome = true) : p.errorSlot.isSome = true := by
  rw [hp.error]
  rw [Lowered.frameLayout] at h
  cases hs : s.throws with
  | true => rfl
  | false =>
    rw [hs] at h
    cases h

theorem Parts.Rest.indirect_field {α : Type} {s : Lowered} {p : Parts α} (hp : p.Rest s)
    (h : s.frameLayout.indirectReturn.isSome = true) : p.indirectReturn.isSome = true := by
  rw [hp.indirect]
  rw [Lowered.frameLayout] at h
  cases hs : s.hasIndirectReturn with
  | true => rfl
  | false =>
    rw [hs] at h
    cases h

theorem Parts.Rest.mem_toFrame {α : Type} {s : Lowered} {p : Parts α} (hp : p.Rest s) {a : α}
    (ha : a ∈ p.toList) : a ∈ p.toFrame := by
  rw [Parts.toList, hp.resume] at ha
  rw [Parts.toFrame]
  simp only [List.mem_append, Option.toList_none, List.not_mem_nil, false_or] at ha ⊢
  rcases ha with ((((h | h) | h) | h) | h) | h <;> simp [h]

theorem Parts.below_toFrame {p : Parts Var} {n : Nat} (h : Below n p.toFrame) :
    Below n p.errorSlot.toList ∧ Below n p.indirectReturn.toList ∧ Below n p.bindings ∧
      Below n [p.receiver] ∧ Below n (witnessList p.witness) := by
  refine ⟨?_, ?_, ?_, ?_, ?_⟩ <;> refine h.of_subset fun v hv => ?_
  case refine_4 =>
    rw [List.mem_singleton] at hv
    simp [toFrame, hv]
  all_goals simp [toFrame, hv]

/-- The code that reads a frame does what `World.fetchFrame` does. -/
theorem emits_ofFrame (hb : b.Open) (s : Lowered) {context : Nat} (hcontext : context < b.vars) :
    Emits (Arguments.ofFrame s s.frameLayout none context) b (fun args b' code =>
      ∃ (p : Parts Var) (uss : List (List Var)), args.Recovers s p uss ∧ p.Rest s ∧
        Below b'.vars p.toFrame ∧ Below b'.vars uss.flatten ∧
        ∀ (call : Caller) (r : Registers) (w : World),
          Step.Matches (steps call r code) (fetchFrame s (r.value context)) w
            fun fetched r' => Agree b.vars r r' ∧ p.map r'.value = fetched.1 ∧
              uss.map r'.all = fetched.2.map ArgValue.words ∧ Shaped s.carriers fetched.2) E := by
  unfold Arguments.ofFrame
  refine (emits_load hb _ _ _).bind hb ?_
  rintro receiver b₁ code₁ hb₁ hle₁ ⟨hreceiver, hmatch₁⟩
  refine (emits_frameWitness hb₁ s (by omega)).bind hb₁ ?_
  rintro witness b₂ code₂ hb₂ hle₂ ⟨hwitness, hbelow₂, hmatch₂⟩
  rw [hwitness, bne_self_eq_false, if_neg (by decide)]
  refine (emits_loadField hb₂ context _).bind hb₂ ?_
  rintro errorSlot b₃ code₃ hb₃ hle₃ ⟨herror, hbelow₃, hmatch₃⟩
  refine (emits_loadField hb₃ context _).bind hb₃ ?_
  rintro indirect b₄ code₄ hb₄ hle₄ ⟨hindirect, hbelow₄, hmatch₄⟩
  rw [if_neg (by simp [Lowered.frameLayout])]
  refine (emits_frameParams s.carriers s.paramsAt 0 hb₄ (by omega)).bind hb₄ ?_
  rintro _ b₅ code₅ hb₅ hle₅ ⟨uss, rfl, hwidths, hbelow₅, hmatch₅⟩
  refine (emits_loadWords _ _ hb₅ (by omega)).bind hb₅ ?_
  rintro bindings b₆ code₆ hb₆ hle₆ ⟨hbindings, hbelow₆, hmatch₆⟩
  rw [List.length_replicate] at hbindings
  rw [Arguments.installDestination_none]
  refine emits_liftM_ok ?_
  have hwitness' : (witness.map fun v => (v.metadata, v.table)).map
      (fun v : Var × Var => (⟨v.1, v.2⟩ : WitnessVars)) = witness := by
    cases witness <;> rfl
  refine emits_pure ⟨⟨none, indirect, [], bindings, receiver, errorSlot,
    witness.map fun v => (v.metadata, v.table)⟩, uss, ⟨rfl, hwitness'.symm, rfl, rfl, rfl, rfl, rfl,
    hwidths⟩, ⟨rfl, rfl, ?_, hbindings, ?_, by rw [Option.isSome_map, hwitness]⟩, ?_,
    hbelow₅.mono hle₆, fun call r w => ?_⟩
  · rw [hindirect, Lowered.frameLayout]
    cases s.hasIndirectReturn <;> rfl
  · rw [herror, Lowered.frameLayout]
    cases s.throws <;> rfl
  · have hwl : Parts.witnessList (witness.map fun v => (v.metadata, v.table))
        = witness.toList.flatMap fun v => [v.metadata, v.table] := by
      cases witness <;> rfl
    simp only [Parts.toFrame, hwl, List.append_nil]
    exact ((((hbelow₃.mono (by omega)).append (hbelow₄.mono (by omega))).append hbelow₆).append
      (below_singleton (by omega))).append (hbelow₂.mono (by omega))
  · rw [List.append_nil, fetchFrame]
    refine matches_steps_append (hmatch₁ call r w) ?_
    rintro word r₁ w₁ - ⟨hagree₁, rfl⟩
    have hc₁ := hagree₁ context hcontext
    rw [← hc₁]
    refine matches_steps_append (hmatch₂ call r₁ w₁) ?_
    rintro words r₂ w₂ - ⟨hagree₂, rfl⟩
    have hc₂ := hagree₂ context (by omega)
    rw [← hc₂]
    refine matches_steps_append (hmatch₃ call r₂ w₂) ?_
    rintro word r₃ w₃ - ⟨hagree₃, rfl⟩
    have hc₃ := hagree₃ context (by omega)
    rw [← hc₃]
    refine matches_steps_append (hmatch₄ call r₃ w₃) ?_
    rintro word r₄ w₄ - ⟨hagree₄, rfl⟩
    have hc₄ := hagree₄ context (by omega)
    rw [← hc₄]
    refine matches_steps_append (hmatch₅ call r₄ w₄) ?_
    rintro args r₅ w₅ - ⟨hagree₅, hvals, hshaped⟩
    have hc₅ := hagree₅ context (by omega)
    have hload := hmatch₆ call r₅ w₅
    rw [List.length_replicate, hc₅] at hload
    refine hload.map (fun words => ((⟨none, indirect.map r₄.value, [], words, r₁.value receiver,
      errorSlot.map r₃.value, witness.map fun v => (r₂.value v.metadata, r₂.value v.table)⟩ :
      Parts Word), args)) ?_
    rintro words r₆ ⟨hagree₆, rfl⟩
    have h45 := hagree₅.trans hagree₆ (n := b₄.vars) hle₅
    have h35 := hagree₄.trans h45 hle₄
    have h25 := hagree₃.trans h35 hle₃
    have h15 := hagree₂.trans h25 hle₂
    refine ⟨hagree₁.trans h15 hle₁, ?_, ?_, hshaped⟩
    · -- every variable still holds what was loaded into it
      simp only [Parts.map, Parts.mk.injEq, Option.map_none, List.map_nil, true_and]
      refine ⟨?_, rfl, h15 _ hreceiver, ?_, ?_⟩
      · exact Option.map_congr fun v hv => h45 v (hbelow₄ v (by simp [Option.mem_def.mp hv]))
      · exact Option.map_congr fun v hv => h35 v (hbelow₃ v (by simp [Option.mem_def.mp hv]))
      · rw [Option.map_map]
        refine Option.map_congr fun v hv => ?_
        show (r₆.value v.metadata, r₆.value v.table) = (r₂.value v.metadata, r₂.value v.table)
        rw [h25 _ (hbelow₂ _ (by simp [Option.mem_def.mp hv])),
          h25 _ (hbelow₂ _ (by simp [Option.mem_def.mp hv]))]
    · rw [← hvals]
      exact List.map_congr_left fun us hus => hagree₆.all_eq
        (hbelow₅.of_subset fun v hv => List.mem_flatten.mpr ⟨us, hus, hv⟩)

/-! ### Filling a frame in code -/

theorem emits_store (hb : b.Open) (value addr : Var) (offset : Nat) :
    Emits (Builder.store value addr offset) b (fun _ b' code => b'.vars = b.vars ∧
      ∀ (call : Caller) (r : Registers) (w : World),
        Step.Matches (steps call r code) (storeAt (r.value addr) offset (r.value value)) w
          fun _ r' => r' = r) E := by
  refine (emits_emit hb _).imp ?_
  rintro - b₁ code ⟨hv, rfl⟩
  refine ⟨hv, fun call r w => ?_⟩
  rw [steps_singleton, step, ← bind_assoc]
  refine (Step.matches_bind_pure _).imp ?_
  rintro _ _ rfl
  rfl

/-- A field that the frame has is stored to, when there is something for it. -/
theorem emits_storeField (hb : b.Open) (frame : Var) (missing : Trap) {offset : Option Nat}
    {value : Option Var} (h : offset.isSome = true → value.isSome = true) :
    Emits (Thunk.storeField frame missing value offset) b (fun _ b' code => b'.vars = b.vars ∧
      ∀ (call : Caller) (r : Registers) (w : World),
        Step.Matches (steps call r code) (writeField (r.value frame) offset (value.map r.value)) w
          fun _ r' => r' = r) E := by
  cases offset with
  | none => exact emits_pure ⟨rfl, fun call r w => Step.matches_pure rfl⟩
  | some offset =>
    obtain ⟨value, rfl⟩ := Option.isSome_iff_exists.mp (h rfl)
    exact emits_store hb value frame offset

theorem emits_frameArgument (hb : b.Open) {frame : Nat} (hframe : frame < b.vars) (start : Nat)
    {c : Carrier} {values : List Var} (hvalues : Below b.vars values)
    (hlen : values.length = c.passing.width)
    (hE : ∀ schema, c.passing = .indirect schema →
      Size.limit ≤ wordBytes * schema.components.length → E) :
    Emits (Thunk.frameArgument frame (FrameField.ofPassing start c.passing) c values) b
      (fun _ _ code => ∀ (call : Caller) (r : Registers) (w : World) (arg : ArgValue),
        arg.Fits c.passing → r.all values = arg.words →
        Step.Matches (steps call r code) (fillParam (r.value frame) start arg c.passing) w
          fun _ r' => Agree b.vars r r') E := by
  unfold Thunk.frameArgument
  cases hp : c.passing with
  | direct schema =>
    simp only [FrameField.ofPassing]
    refine (emits_storeWords hb _ _ _).imp ?_
    rintro - b₁ code ⟨-, hmatch⟩ call r w arg hfits hall
    rw [fillParam, ← hall]
    refine (hmatch call r w).map (fun _ => []) ?_
    rintro _ _ rfl
    exact .refl _ _
  | indirect schema =>
    simp only [FrameField.ofPassing]
    refine (emits_spill hb hvalues (by
      rw [hlen, hp]
      exact hE schema hp)).bind hb ?_
    rintro temp b₁ code₁ hb₁ hle₁ ⟨htemp, hmatch₁⟩
    refine (emits_store hb₁ _ _ _).imp ?_
    rintro - b₂ code₂ ⟨-, hmatch₂⟩ call r w arg hfits hall
    rw [fillParam, ← hall]
    refine matches_steps_append (hmatch₁ call r w) ?_
    rintro spilled r₁ w₁ - ⟨hagree, hval⟩
    rw [← hval, ← hagree frame hframe]
    refine (hmatch₂ call r₁ w₁).map (fun _ => spilled.2) ?_
    rintro _ _ rfl
    exact hagree
  | address =>
    rw [hp] at hlen
    obtain ⟨v, rfl⟩ := List.length_eq_one_iff.mp hlen
    simp only [FrameField.ofPassing, Attempt.element_eq List.getElem?_cons_zero, Step.liftM_ok,
      pure_bind]
    refine (emits_store hb _ _ _).imp ?_
    rintro - b₁ code ⟨-, hmatch⟩ call r w arg hfits hall
    have hv : arg.scalar = r.value v := by
      rw [ArgValue.scalar, ← hall]
      rfl
    rw [fillParam, hv]
    refine (hmatch call r w).map (fun _ => []) ?_
    rintro _ _ rfl
    exact .refl _ _

theorem emits_storeArguments {frame : Nat} : ∀ (carriers : List Carrier) (uss : List (List Var))
    (start : Nat) {b : Builder}, b.Open → frame < b.vars → Below b.vars uss.flatten →
    uss.map List.length = carriers.map (fun c => c.passing.width) →
    (∀ c ∈ carriers, ∀ schema, c.passing = .indirect schema →
      Size.limit ≤ wordBytes * schema.components.length → E) →
    Emits (Thunk.storeArguments frame ((frameFields start carriers).zip (carriers.zip uss))) b
      (fun _ _ code => ∀ (call : Caller) (r : Registers) (w : World) (args : List ArgValue),
        Shaped carriers args → uss.map r.all = args.map ArgValue.words →
        Step.Matches (steps call r code)
          (fillParams (r.value frame) start (carriers.zip args)) w fun _ r' => Agree b.vars r r') E := by
  intro carriers
  induction carriers with
  | nil =>
    intro uss start b _ _ _ _ _
    exact emits_pure fun call r w args _ _ => Step.matches_pure (.refl _ _)
  | cons c cs ih =>
    intro uss start b hb hframe hbelow hwidths hE
    cases uss with
    | nil => simp at hwidths
    | cons us uss =>
      rw [List.map_cons, List.map_cons, List.cons.injEq] at hwidths
      rw [List.flatten_cons] at hbelow
      have hbelow₁ : Below b.vars us := hbelow.of_subset (List.subset_append_left _ _)
      have hbelow₂ : Below b.vars uss.flatten := hbelow.of_subset (List.subset_append_right _ _)
      rw [frameFields, List.zip_cons_cons, List.zip_cons_cons, Thunk.storeArguments]
      refine (emits_frameArgument hb hframe start hbelow₁ hwidths.1 (hE c List.mem_cons_self)).bind
        hb ?_
      rintro - b₁ code₁ hb₁ hle₁ hmatch₁
      refine (ih uss _ hb₁ (by omega) (hbelow₂.mono hle₁) hwidths.2
        fun c' hc' => hE c' (List.mem_cons_of_mem _ hc')).imp ?_
      rintro - b₂ code₂ hmatch₂ call r w args hshaped hall
      cases args with
      | nil => exact hshaped.elim
      | cons arg args =>
        rw [List.map_cons, List.map_cons, List.cons.injEq] at hall
        rw [List.zip_cons_cons, fillParams]
        refine matches_steps_append (hmatch₁ call r w arg hshaped.1 hall.1) ?_
        rintro spilled r₁ w₁ - hagree₁
        have hall' : uss.map r₁.all = args.map ArgValue.words := by
          rw [← hall.2]
          refine List.map_congr_left fun us' hus' => hagree₁.all_eq ?_
          exact hbelow₂.of_subset fun v hv => List.mem_flatten.mpr ⟨us', hus', hv⟩
        rw [← hagree₁ frame hframe]
        refine (hmatch₂ call r₁ w₁ args hshaped.2 hall').map (spilled ++ ·) ?_
        rintro _ r₂ hagree₂
        exact hagree₁.trans hagree₂ hle₁

/-- A call with a frame in code is a call with a frame. -/
theorem matches_callFrame {call : Caller} {r : Registers} {w : World} (function frame : Var) :
    Step.Matches (step call r (.call function .async [frame] []))
      (Thunk.callFrame call (r.value function) (r.value frame)) w fun _ r' => r' = r := by
  have hstep : step call r (.call function .async [frame] [])
      = suspend >>= fun _ => call (r.value function) [r.value frame] >>= fun words =>
        liftM (r.setAll [] words "call results") := rfl
  rw [hstep, Thunk.callFrame]
  refine (Step.Matches.refl _ w).bind ?_
  rintro - - w₁ - -
  refine (Step.Matches.refl _ w₁).bind ?_
  rintro _ words w₂ - rfl
  cases words with
  | nil => exact ⟨r, rfl, rfl⟩
  | cons word rest => exact rfl

/-- Both words of a witness are stored, or neither. -/
theorem emits_storeWitness (hb : b.Open) (s : Lowered) (frame : Var) {witness : Option (Var × Var)}
    (hwitness : witness.isSome = s.witness) :
    Emits (Thunk.storeWitness s.frameLayout frame (witness.map fun w => ⟨w.1, w.2⟩)) b
      (fun _ b' code => b'.vars = b.vars ∧ ∀ (call : Caller) (r : Registers) (w : World),
        Step.Matches (steps call r code)
          (do
            writeField (r.value frame) s.frameLayout.selfMetadata
              ((witness.map fun v => (r.value v.1, r.value v.2)).map (·.1))
            writeField (r.value frame) s.frameLayout.selfWitnessTable
              ((witness.map fun v => (r.value v.1, r.value v.2)).map (·.2))) w
          fun _ r' => r' = r) E := by
  cases witness with
  | none =>
    simp only [Thunk.storeWitness, Lowered.frameLayout, ← hwitness, Option.isSome_none,
      Bool.false_eq_true, if_false]
    exact emits_pure ⟨rfl, fun call r w => Step.matches_pure rfl⟩
  | some words =>
    simp only [Thunk.storeWitness, Lowered.frameLayout, ← hwitness, Option.isSome_some, if_true,
      Option.map_some, Attempt.require, Step.liftM_ok, pure_bind]
    refine (emits_store hb _ _ _).bind hb ?_
    rintro - b₁ code₁ hb₁ - ⟨hv₁, hmatch₁⟩
    refine (emits_store hb₁ _ _ _).imp ?_
    rintro - b₂ code₂ ⟨hv₂, hmatch₂⟩
    refine ⟨by omega, fun call r w => ?_⟩
    refine matches_steps_append (hmatch₁ call r w) ?_
    rintro - r₁ w₁ - rfl
    exact hmatch₂ call r₁ w₁

/-- A result with components in the frame is not returned by address. -/
theorem Lowered.hasIndirectReturn_of_scalars {s : Lowered} {kind : Scalar} {rest : List Scalar}
    (h : s.resultScalars = kind :: rest) : s.hasIndirectReturn = false := by
  unfold Lowered.resultScalars at h
  rw [Lowered.hasIndirectReturn]
  cases hpass : s.result.passing with
  | direct schema => rfl
  | indirect schema =>
    rw [hpass] at h
    cases h
  | address =>
    rw [hpass] at h
    cases h

/-- What a call gives when these variables hold the results that the frame has. -/
def Lowered.outcome (s : Lowered) (results : List Var) : CallOutcome :=
  if s.hasIndirectReturn then .memory else .explosion (.ofList results)

namespace Thunk

/-- Taking the results out of a frame is loading their words. -/
theorem leftIn_eq (s : Lowered) (frame : Var) :
    leftIn s s.frameLayout frame = Arguments.loadWords frame (8 * s.resultsAt) s.resultScalars
      >>= fun results => pure (s.outcome results) := by
  unfold leftIn Lowered.outcome Lowered.frameLayout
  cases hscalars : s.resultScalars with
  | nil =>
    rw [Arguments.loadWords, pure_bind]
    split <;> rfl
  | cons kind rest =>
    simp only [Lowered.hasIndirectReturn_of_scalars hscalars, Bool.false_eq_true, if_false,
      List.isEmpty_cons]

/-- The results are stored where the signature has them; results that are not there need no
place. -/
theorem emitReturn_outcome {s : Lowered} {results : List Var}
    (hlength : results.length = s.resultScalars.length) (context : Var) :
    emitReturn s (.async context s.frameLayout) (s.outcome results) =
      storeWords context (8 * s.resultsAt) results >>= fun _ => Builder.terminate .asyncExit := by
  cases hscalars : s.resultScalars with
  | nil =>
    rw [hscalars] at hlength
    rw [List.eq_nil_of_length_eq_zero hlength, Lowered.outcome, storeWords, pure_bind]
    split <;> rfl
  | cons kind rest =>
    have hsize : (Explosion.ofList results).size ≠ 0 := by
      rw [Explosion.size, Explosion.ofList, hlength, hscalars]
      exact Nat.succ_ne_zero _
    simp only [Lowered.outcome, Lowered.hasIndirectReturn_of_scalars hscalars, Bool.false_eq_true,
      if_false, emitReturn, ne_eq, hsize, not_false_eq_true, if_true, Lowered.frameLayout, hscalars,
      List.isEmpty_cons, Attempt.require, Step.liftM_ok, pure_bind, FrameField.offset]
    rfl

/-- A call through the standard frame, part by part. -/
theorem asyncCall_eq {s : Lowered} {args : Arguments} {p : Parts Var} {uss : List (List Var)}
    (hargs : args.Recovers s p uss) (hp : p.Rest s) (function : Var) :
    asyncCall s s.frameLayout function args = (do
      let frame ← Builder.stackAlloc s.frameLayout.size
      Builder.store p.receiver frame s.frameLayout.localContext
      storeWitness s.frameLayout frame (p.witness.map fun w => ⟨w.1, w.2⟩)
      storeField frame .noErrorDestination p.errorSlot s.frameLayout.errorSlot
      storeField frame .noResultDestination p.indirectReturn s.frameLayout.indirectReturn
      storeArguments frame (s.frameLayout.args.zip (s.carriers.zip uss))
      storeWords frame s.frameLayout.bindings p.bindings
      let _ ← Builder.call function s.convention [frame] []
      let results ← Arguments.loadWords frame (8 * s.resultsAt) s.resultScalars
      return s.outcome results) := by
  have hlength : uss.length = s.carriers.length := by
    simpa using congrArg List.length hargs.widths
  have hfields : s.frameLayout.args.length = s.carriers.length := by simp [Lowered.frameLayout]
  rw [asyncCall, hargs.split hp.bindings, Step.liftM_ok, pure_bind]
  simp only [hargs.receiver, hargs.witness, hargs.errorDestination, hargs.indirectReturn,
    frameArguments_eq _ s.carriers uss s.frameLayout.args 0 rfl rfl hlength hfields, leftIn_eq]

/-- The code of an asynchronous thunk after its context was made. -/
theorem forward_async {s : Lowered} (hframe : s.frame = some s.frameLayout) (p : Pool)
    (target : Attempt Target) (m : Method) (context : Var) :
    (attach s.frameLayout [context] >>= fun (convention, params) =>
        forward p target { method := m, own := s, forwarded := s } convention params) = (do
      Builder.asyncEntry context s.frameLayout.size
      let args ← Arguments.ofFrame s s.frameLayout none context
      let function ← (← target).resolve p m args
      let outcome ← asyncCall s s.frameLayout function args
      emitReturn s (.async context s.frameLayout) outcome) := by
  simp only [attach, bind_assoc, pure_bind, forward, prepare, forwardCall, hframe]

end Thunk

theorem emits_asyncCall (hb : b.Open) {s : Lowered} (hs : s.convention = .async)
    {args : Arguments} {p : Parts Var} {uss : List (List Var)} (hargs : args.Recovers s p uss)
    (hp : p.Rest s) (hbelow : Below b.vars p.toFrame) (huss : Below b.vars uss.flatten)
    {function : Nat} (hfunction : function < b.vars)
    (hE : ∀ c ∈ s.carriers, ∀ schema, c.passing = .indirect schema →
      Size.limit ≤ wordBytes * schema.components.length → E) :
    Emits (Thunk.asyncCall s s.frameLayout function args) b (fun outcome b' code => ∃ vs,
      outcome = s.outcome vs ∧ Below b'.vars vs ∧ vs.length = s.resultScalars.length ∧
      ∀ (call : Caller) (r : Registers) (w : World) (values : List ArgValue),
        Shaped s.carriers values → uss.map r.all = values.map ArgValue.words →
        Step.Matches (steps call r code)
          (do
            let own ← withMemory (Memory.alloc s.frameLayout.size)
            fillFrame s own (p.map r.value) values
            Thunk.callFrame call (r.value function) own
            loadAll own (8 * s.resultsAt) s.resultScalars.length) w
          fun results r' => Agree b.vars r r' ∧ r'.all vs = results) E := by
  obtain ⟨-, -, hbindings, -, -⟩ := Parts.below_toFrame hbelow
  rw [Thunk.asyncCall_eq hargs hp]
  refine (emits_define hb _ _).bind hb ?_
  rintro frame b₁ code₁ hb₁ hle₁ ⟨rfl, hv₁, rfl⟩
  refine (emits_store hb₁ _ _ _).bind hb₁ ?_
  rintro - b₂ code₂ hb₂ hle₂ ⟨hv₂, hmatch₂⟩
  refine (emits_storeWitness hb₂ s b.vars hp.witness).bind hb₂ ?_
  rintro - b₃ code₃ hb₃ hle₃ ⟨hv₃, hmatch₃⟩
  refine (emits_storeField hb₃ _ _ hp.error_field).bind hb₃ ?_
  rintro - b₄ code₄ hb₄ hle₄ ⟨hv₄, hmatch₄⟩
  refine (emits_storeField hb₄ _ _ hp.indirect_field).bind hb₄ ?_
  rintro - b₅ code₅ hb₅ hle₅ ⟨hv₅, hmatch₅⟩
  refine (emits_storeArguments s.carriers uss s.paramsAt hb₅ (show b.vars < b₅.vars by omega)
    (huss.mono (by omega)) hargs.widths hE).bind hb₅ ?_
  rintro - b₆ code₆ hb₆ hle₆ hmatch₆
  refine (emits_storeWords hb₆ _ _ _).bind hb₆ ?_
  rintro - b₇ code₇ hb₇ hle₇ ⟨hv₇, hmatch₇⟩
  refine (emits_defineAll hb₇ _ _).bind hb₇ ?_
  rintro _ b₈ code₈ hb₈ hle₈ ⟨rfl, hv₈, rfl⟩
  refine (emits_loadWords _ _ hb₈ (by omega)).bind hb₈ ?_
  rintro vs b₉ code₉ hb₉ hle₉ ⟨hlen, hvs, hmatch₉⟩
  refine emits_pure ⟨vs, rfl, hvs, hlen, fun call r w values hshaped hall => ?_⟩
  -- the code is there; each piece of it does one step of the call, and the variables that come
  -- later still have their values then
  rw [List.append_nil]
  refine matches_steps_append (R := fun own r' => Agree b.vars r r' ∧ r'.value b.vars = own)
    (matches_set rfl (Nat.le_refl _)) ?_
  rintro own r₁ w₁ - ⟨hagree₁, rfl⟩
  have hparts : p.map r₁.value = p.map r.value :=
    Parts.map_congr fun v hv => hagree₁ v (hbelow v (hp.mem_toFrame hv))
  rw [← hparts, fillFrame]
  simp only [bind_assoc]
  refine matches_steps_append (hmatch₂ call r₁ w₁) ?_
  rintro - _ w₂ - rfl
  rw [← bind_assoc]
  refine matches_steps_append (hmatch₃ call _ w₂) ?_
  rintro - _ w₃ - rfl
  refine matches_steps_append (hmatch₄ call _ w₃) ?_
  rintro - _ w₄ - rfl
  refine matches_steps_append (hmatch₅ call _ w₄) ?_
  rintro - r₅ w₅ - rfl
  have hall₁ : uss.map r₅.all = values.map ArgValue.words :=
    (hagree₁.map_all_eq huss).trans hall
  refine matches_steps_append (hmatch₆ call r₅ w₅ values hshaped hall₁) ?_
  rintro - r₆ w₆ - hagree₆
  have hframe₆ : r₆.value b.vars = r₅.value b.vars := hagree₆ _ (by omega)
  have hstore := hmatch₇ call r₆ w₆
  rw [hframe₆, hagree₆.all_eq (hbindings.mono (by omega))] at hstore
  refine matches_steps_append hstore ?_
  rintro - r₇ w₇ - rfl
  have hcall := @matches_callFrame call r₇ w₇ function b.vars
  rw [hframe₆, hagree₆ function (by omega), hagree₁ function hfunction, ← hs,
    ← steps_singleton] at hcall
  refine matches_steps_append hcall ?_
  rintro - r₈ w₈ - rfl
  have hload := hmatch₉ call r₈ w₈
  rw [hframe₆] at hload
  refine hload.imp ?_
  rintro results r₉ ⟨hagree₉, hall₉⟩
  exact ⟨(hagree₁.trans hagree₆ (by omega)).trans hagree₉ (by omega), hall₉⟩

/-- From its context on an asynchronous thunk does what `Thunk.forwardAsync` does. -/
theorem closes_forwardAsync (hb : b.Open) {s : Lowered} (hs : s.convention = .async)
    (hframe : s.frame = some s.frameLayout) {p : Pool} {m : Method} {target : Attempt Target}
    {context : Nat} (hcontext : context < b.vars)
    (htarget : ∀ fault, target = .error fault → E)
    (hmeta : ∀ fault, Target.receiverIsMetadata p m = .error fault → E)
    (hwitness : s.witness = false → ∀ index, target = .ok (.witness index) → E)
    (hsize : ∀ c ∈ s.carriers, ∀ schema, c.passing = .indirect schema →
      Size.limit ≤ wordBytes * schema.components.length → E) :
    Closes (Thunk.attach s.frameLayout [context] >>= fun (convention, params) =>
        Thunk.forward p target { method := m, own := s, forwarded := s } convention params)
      b (fun code terminator => ∃ t, target = .ok t ∧
        ∀ (call : Caller) (r : Registers) (w : World),
          Step.Matches (steps call r code)
            (Thunk.forwardAsync call p m t s (r.value context)) w
            fun results r' => terminator.Leaves r' results) E := by
  rw [Thunk.forward_async hframe]
  refine (emits_emit hb _).closes hb ?_
  rintro - b₁ code₁ hb₁ hle₁ ⟨hv₁, rfl⟩
  refine (emits_ofFrame hb₁ s (by omega)).closes hb₁ ?_
  rintro args b₂ code₂ hb₂ hle₂ ⟨parts, uss, hargs, hrest, hbelow, huss, hmatch₂⟩
  refine closes_liftM_bind (fun t ht => ?_) htarget
  have hreceiver : Below b₂.vars [args.receiver] := by
    obtain ⟨-, -, -, hreceiver, -⟩ := Parts.below_toFrame hbelow
    rw [hargs.receiver]
    exact hreceiver
  have hnone : args.witness = none → ∀ index, t = .witness index → E :=
    fun hw index hindex => hwitness (hargs.witness_eq_false hrest.witness hw) index (hindex ▸ ht)
  refine (emits_resolve hb₂ p m t hreceiver hmeta hnone).closes hb₂ ?_
  rintro function b₃ code₃ hb₃ hle₃ ⟨hfunction, hmatch₃⟩
  refine (emits_asyncCall hb₃ hs hargs hrest (hbelow.mono hle₃) (huss.mono hle₃)
    (hfunction _ List.mem_cons_self) hsize).closes hb₃ ?_
  rintro _ b₄ code₄ hb₄ hle₄ ⟨vs, rfl, hvs, hlen, hmatch₄⟩
  rw [Thunk.emitReturn_outcome hlen]
  refine (emits_storeWords hb₄ _ _ _).closes hb₄ ?_
  rintro - b₅ code₅ hb₅ hle₅ ⟨hv₅, hmatch₅⟩
  refine closes_terminate hb₅ _ ⟨t, ht, fun call r w => ?_⟩
  -- the code is there, and is run in the same order
  rw [List.append_nil, Thunk.forwardAsync]
  refine matches_steps_append (R := fun _ r' => r' = r) ?_ ?_
  · rw [steps_singleton, step]
    refine (Step.matches_bind_pure _).imp ?_
    rintro _ _ rfl
    rfl
  rintro - r₁ w₁ - rfl
  refine matches_steps_append (hmatch₂ call r₁ w₁) ?_
  rintro fetched r₂ w₂ - ⟨hagree₂, hparts, hvals, hshaped⟩
  have hload := hmatch₃ call r₂ w₂
  have hself : r₂.value args.receiver = fetched.1.receiver := by
    rw [hargs.receiver, ← hparts]
    rfl
  rw [hargs.witness_words, hparts, hself] at hload
  refine matches_steps_append hload ?_
  rintro word r₃ w₃ - ⟨hagree₃, hword⟩
  have hvals₃ : uss.map r₃.all = fetched.2.map ArgValue.words :=
    (hagree₃.map_all_eq huss).trans hvals
  have hparts₃ : parts.map r₃.value = fetched.1 := by
    rw [← hparts]
    refine Parts.map_congr fun v hv => hagree₃ v (hbelow v (hrest.mem_toFrame hv))
  have hcall := hmatch₄ call r₃ w₃ fetched.2 hshaped hvals₃
  rw [hparts₃, hword] at hcall
  have hassoc : ∀ (k : List Word → Run (List Word)),
      (do
        let own ← withMemory (Memory.alloc s.frameLayout.size)
        fillFrame s own fetched.1 fetched.2
        Thunk.callFrame call word own
        let results ← loadAll own (8 * s.resultsAt) s.resultScalars.length
        k results)
      = (do
          let own ← withMemory (Memory.alloc s.frameLayout.size)
          fillFrame s own fetched.1 fetched.2
          Thunk.callFrame call word own
          loadAll own (8 * s.resultsAt) s.resultScalars.length) >>= k := by
    intro k
    simp only [bind_assoc]
  rw [hassoc]
  refine matches_steps_append hcall ?_
  rintro results r₄ w₄ - ⟨hagree₄, hall₄⟩
  have hstore := hmatch₅ call r₄ w₄
  have hcontext₄ : r₄.value context = r₁.value context := by
    rw [hagree₄ context (by omega), hagree₃ context (by omega), hagree₂ context (by omega)]
  rw [hall₄, hcontext₄] at hstore
  refine hstore.map (fun _ => []) ?_
  rintro - r₅ rfl
  exact Or.inr ⟨rfl, rfl⟩

end Emission

/-! ### The whole thunk -/

namespace Thunk

variable {p : Pool} {target : Attempt Target} {m : Method} {s : Lowered}

/-- Generating an asynchronous thunk: it does what `forwardAsync` does, or one of the
four things that stop generation is there. -/
theorem function_async (hs : s.convention = .async) (hframe : s.frame = some s.frameLayout)
    (symbol : String) {E : Prop}
    (htarget : ∀ fault, target = .error fault → E)
    (hmeta : ∀ fault, Target.receiverIsMetadata p m = .error fault → E)
    (hwitness : s.witness = false → ∀ index, target = .ok (.witness index) → E)
    (hsize : ∀ c ∈ s.carriers, ∀ schema, c.passing = .indirect schema →
      Size.limit ≤ wordBytes * schema.components.length → E) :
    (∃ f t, function p target { method := m, own := s, forwarded := s } symbol = .ok f ∧
      target = .ok t ∧ f.name = symbol ∧
      ∀ (call : Caller) (w : World) (frame : Word),
        World.run call f [frame] w = forwardAsync call p m t s frame w) ∨
      (∃ fault, function p target { method := m, own := s, forwarded := s } symbol = .error fault)
        ∧ E := by
  have hkinds := Lowered.paramKinds_async hs
  have hemit := @ends_function [.ptr]
    (fun params => attach s.frameLayout params >>= fun (convention, params) =>
      forward p target { method := m, own := s, forwarded := s } convention params) _ E symbol
    m.convention (fun b hb hvars => closes_forwardAsync hb hs hframe
      (show 0 < b.vars by rw [hvars]; exact Nat.one_pos) htarget hmeta hwitness hsize)
  have heq : emit p target { method := m, own := s, forwarded := s }
      = [Scalar.ptr].mapM Builder.param >>= fun params =>
        attach s.frameLayout params >>= fun (convention, params) =>
          forward p target { method := m, own := s, forwarded := s } convention params := by
    simp only [emit, enter_async hs hframe, hkinds, bind_assoc]
  rw [← heq] at hemit
  unfold function
  unfold Step.Ends at hemit
  split at hemit
  · next b hrun =>
    left
    obtain ⟨hname, hparams, code, terminator, hblocks, t, ht, hmatch⟩ := hemit
    refine ⟨b.finish, t, by simp only [hrun], ht, hname, ?_⟩
    intro call w frame
    refine run_eq_of_matches hblocks hparams rfl fun r hall => ?_
    have hvalue : r.value 0 = frame := by
      have := congrArg (·.headD 0) hall
      exact this
    rw [← hvalue]
    exact hmatch call r w
  · next fault b hrun =>
    right
    exact ⟨⟨fault, by simp only [hrun]⟩, hemit⟩

end Thunk

end Dispatch
