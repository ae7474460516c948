import Dispatch.Proofs.Emission
import Dispatch.Proofs.Footprint.Tame
import Dispatch.Proofs.Reachability

/-!
# Worlds that operations lead to

Between boot and the end a machine may be asked for anything: to generate code, to install
implementations, to call what it likes with any arguments, and to write anywhere.  Few
promises survive that, but some do: symbols keep regions of their own, the layout of the
target stays, and an implementation is only ever called with the native signature that it
was installed with.

## Main definitions

* `World.Follows` — what every step keeps.
* `World.Orderly` — steps after which the world follows on the one before.
* `Operation` — everything that a machine can be asked.
* `World.Operated` — the worlds that operations lead to.

## Main results

* `Module.keepsLayout_ask` — requests for code.
* `World.orderly_layOut` — booting.
* `World.orderly_run` — one operation.
* `World.Operated.installed` — all of them.
-/

namespace Dispatch

open Attempt

/-! ### Generating code -/

namespace Module

variable {α β : Type} {v : Module} {x : Generate α} {f : α → Generate β}

/-- However it ends, the step keeps the layout of the target. -/
def KeepsLayout (x : Generate α) : Prop :=
  ∀ v, Step.Ends x v (fun _ v' => v'.layout = v.layout) fun _ v' => v'.layout = v.layout

theorem KeepsLayout.bind (hx : KeepsLayout x) (hf : ∀ a, KeepsLayout (f a)) :
    KeepsLayout (x >>= f) := fun v =>
  (hx v).bind_rel (fun a v' _ => hf a v') fun _ _ h h' => h'.trans h

theorem KeepsLayout.map (g : α → β) (hx : KeepsLayout x) : KeepsLayout (g <$> x) := fun v => by
  rw [Step.ends_map]
  exact hx v

theorem keepsLayout_of_quietly (h : ∀ v, Quietly x v) : KeepsLayout x := fun v => by
  refine Step.Ends.imp (h v) (fun _ _ hq => ?_) fun _ _ hq => ?_
  · obtain ⟨_, _, rfl⟩ := hq
    rfl
  · obtain ⟨_, _, rfl⟩ := hq
    rfl

/-- What a step goes on with may depend on the module. -/
theorem keepsLayout_get {g : Module → Generate β} (h : ∀ v, KeepsLayout (g v)) :
    KeepsLayout (get >>= g) := fun v => by
  rw [Step.ends_bind, Step.ends_get]
  exact h v v

theorem keepsLayout_pure (a : α) : KeepsLayout (pure a : Generate α) := fun _ => rfl

theorem keepsLayout_throw (fault : Fault) : KeepsLayout (throw fault : Generate α) := fun _ => rfl

theorem keepsLayout_liftM (attempt : Attempt α) : KeepsLayout (liftM attempt : Generate α) :=
  keepsLayout_of_quietly fun _ => quietly_liftM attempt

theorem keepsLayout_withPool (x : Step Pool α) : KeepsLayout (withPool x) := fun v => by
  rw [withPool, Step.ends_zoom]
  unfold Step.Ends
  split <;> rfl

theorem keepsLayout_definePointer (symbol : String) (frame : Option Frame) :
    KeepsLayout (definePointer symbol frame) :=
  keepsLayout_of_quietly fun v => quietly_definePointer (v := v) symbol frame

theorem keepsLayout_declareThunk (m : Method) : KeepsLayout (declareThunk m) := fun v => by
  rw [declareThunk, Step.ends_bind, Step.ends_get, Step.ends_bind, Step.ends_liftM]
  refine ⟨fun r _ => ?_, fun _ _ => rfl⟩
  rw [Step.ends_bind, Step.ends_set]
  exact ((keepsLayout_definePointer _ _).bind fun _ => keepsLayout_pure _) _

theorem keepsLayout_emitPlanned (plan : ThunkPlan) (symbol : String) :
    KeepsLayout (emitPlanned plan symbol) :=
  (keepsLayout_liftM _).bind fun _ => (keepsLayout_definePointer _ _).bind fun _ =>
    keepsLayout_get fun _ => (keepsLayout_liftM _).bind fun _ => keepsLayout_pure _

theorem keepsLayout_emitThunk (m : Method) (entry : Entry Lowered) :
    KeepsLayout (emitThunk m entry) := by
  have hplan : KeepsLayout (planThunk m entry.declaration) := by
    refine (keepsLayout_withPool _).bind fun map => (keepsLayout_withPool _).bind
      fun signature => ?_
    split
    · exact keepsLayout_pure _
    · exact keepsLayout_get fun _ => (keepsLayout_liftM _).bind fun _ => keepsLayout_pure _
  exact hplan.bind fun plan => keepsLayout_emitPlanned plan _

theorem keepsLayout_defineThunk (m : Method) : KeepsLayout (defineThunk m) := by
  rw [defineThunk_eq]
  refine (keepsLayout_declareThunk m).bind fun entry => ?_
  cases entry.body with
  | some body => exact keepsLayout_pure _
  | none =>
    intro v
    simp only [Step.ends_bind, Step.ends_observe]
    refine (keepsLayout_emitThunk m entry v).imp (fun a v' h => ?_) fun fault v' h => ?_
    · rw [Step.ends_get, Step.ends_set, Step.ends_liftM]
      exact ⟨fun _ _ => h, fun _ _ => h⟩
    · rw [Step.ends_get, Step.ends_set, Step.ends_liftM]
      exact ⟨fun _ _ => h, fun _ _ => h⟩

theorem keepsLayout_asyncPointer (m : Method) : KeepsLayout (asyncPointer m) := by
  unfold asyncPointer
  split
  · exact (keepsLayout_declareThunk m).bind fun _ => keepsLayout_pure _
  · exact keepsLayout_throw _

theorem keepsLayout_emitThunks (methods : List Method) : KeepsLayout (emitThunks methods) := by
  unfold emitThunks
  induction methods with
  | nil => exact keepsLayout_pure _
  | cons m rest ih =>
    rw [List.mapM_cons]
    exact (keepsLayout_defineThunk m).bind fun _ => ih.bind fun _ => keepsLayout_pure _

/-- Requests keep the layout of the target. -/
theorem keepsLayout_ask (query : Query) : KeepsLayout query.ask := by
  cases query with
  | intern shape => exact (keepsLayout_withPool _).map _
  | declareThunk m => exact (keepsLayout_declareThunk m).map _
  | defineThunk m => exact (keepsLayout_defineThunk m).map _
  | emitThunks methods => exact (keepsLayout_emitThunks methods).map _
  | asyncPointer m => exact (keepsLayout_asyncPointer m).map _
  | declareDescriptor m => exact (keepsLayout_of_quietly (quietly_declareDescriptor m)).map _
  | declareLookup className => exact (keepsLayout_of_quietly fun v => quietly_declareLookup v).map _
  | defineLookup className => exact (keepsLayout_of_quietly fun v => quietly_defineLookup v).map _

end Module

namespace World

variable {α β : Type} {w w' w'' : World} {x : Run α} {f : α → Run β}

/-! ### Orderly steps -/

/-- What every step keeps: symbols have regions of their own, the layout of the target
stays, and a new implementation has the native signature of a method. -/
structure Follows (w w' : World) : Prop where
  linked : w.Linked → w'.Linked
  layout : w'.module.layout = w.module.layout
  implementations : ∀ symbol i, w'.machine.implementations.get? symbol = some i →
    w.machine.implementations.get? symbol = some i ∨
      i.symbol = symbol ∧ ∃ p m, w.module.layout.lower p m = .ok i.signature

theorem Follows.refl (w : World) : Follows w w := ⟨id, rfl, fun _ _ h => .inl h⟩

theorem Follows.trans (h : Follows w w') (h' : Follows w' w'') : Follows w w'' where
  linked hw := h'.linked (h.linked hw)
  layout := h'.layout.trans h.layout
  implementations symbol i hi := by
    rcases h'.implementations symbol i hi with hi | hi
    · exact h.implementations symbol i hi
    · rw [h.layout] at hi
      exact .inr hi

theorem Spares.follows {floor : Nat} (h : Spares floor w w') : Follows w w' where
  linked := h.linked
  layout := by rw [h.module]
  implementations _ _ hi := .inl (h.implementations ▸ hi)

/-- A change of anything but memory, symbols, implementations and the layout. -/
theorem follows_of_same (hmemory : w'.memory = w.memory)
    (hsymbols : w'.machine.symbols = w.machine.symbols)
    (himpl : w'.machine.implementations = w.machine.implementations)
    (hlayout : w'.module.layout = w.module.layout) : Follows w w' where
  linked hw := by
    have hev : w.memory.Evolves (fun _ => False) w'.memory := hmemory ▸ .refl _ _
    exact hw.evolves hsymbols hev
  layout := hlayout
  implementations _ _ hi := .inl (himpl ▸ hi)

/-- However it ends, the world follows on the one before. -/
def Orderly (x : Run α) : Prop :=
  ∀ w : World, w.Linked → Step.Ends x w (fun _ w' => Follows w w') fun _ w' => Follows w w'

theorem Tame.orderly (h : Tame x) : Orderly x := fun w hw =>
  Step.Ends.imp (h w hw) (fun _ _ hs => hs.1.follows) fun _ _ hs => hs.follows

theorem Orderly.bind (hx : Orderly x) (hf : ∀ a, Orderly (f a)) : Orderly (x >>= f) :=
  fun w hw => (hx w hw).bind_rel (fun a w' h => hf a w' (h.linked hw)) fun _ _ h h' => h.trans h'

/-- What an orderly step goes on with may depend on the world. -/
theorem orderly_get {g : World → Run β} (h : ∀ w, Orderly (g w)) : Orderly (get >>= g) :=
  fun w hw => by
    rw [Step.ends_bind, Step.ends_get]
    exact h w w hw

theorem orderly_pure (a : α) : Orderly (pure a : Run α) := (tame_pure a).orderly

theorem orderly_liftM (attempt : Attempt α) : Orderly (liftM attempt : Run α) :=
  (tame_liftM attempt).orderly

theorem orderly_modify {g : World → World} (h : ∀ w, Follows w (g w)) :
    Orderly (modify g : Run PUnit) := fun w _ => h w

theorem orderly_withModule {y : Generate α} (h : Module.KeepsLayout y) :
    Orderly (withModule y) := fun w _ => by
  rw [ends_withModule]
  exact (h w.module).imp (fun _ _ hv => follows_of_same rfl rfl rfl hv)
    fun _ _ hv => follows_of_same rfl rfl rfl hv

theorem orderly_forM (g : α → Run PUnit) (h : ∀ a, Orderly (g a)) (l : List α) :
    Orderly (l.forM g) := by
  induction l with
  | nil => exact orderly_pure _
  | cons a rest ih => exact (h a).bind fun _ => ih

/-! ### Tables -/

theorem tame_writeEntries (base : Word) (entries : List VTableEntry) (start : Nat) :
    Tame (writeEntries base start entries) := by
  induction entries generalizing start with
  | nil => exact tame_pure _
  | cons e rest ih =>
    refine Tame.bind ?_ fun _ => (tame_liftM _).bind fun _ => (tame_write _ _).bind fun _ => ih _
    refine (tame_addressOf _).bind fun address => tame_get fun w => ?_
    simp only
    split
    · exact tame_pure _
    · exact (tame_liftM _).bind fun _ => tame_pure _

/-- All that is done for a class before its metadata counts as such. -/
def composeClass (name : String) (parent : Word) : Run Word := do
  let h := (← get).module.hierarchy
  let table ← (h.vtable name).onMachine
  let base ← withMemory (Memory.allocWords table.words)
  let descriptor ← (h.typeDescriptor name).onMachine
  fillClass base parent descriptor table.entries
  let bounds ← addressOf (h.boundsSymbol name)
  write bounds (UInt64.ofNat (table.ownStart * wordBytes))
  return base

theorem layOutClass_eq_compose (name : String) (parent : Word) :
    layOutClass name parent = (do
      let base ← composeClass name parent
      modify fun w =>
        { w with machine := { w.machine with classes := w.machine.classes.insert name base } }
      return base) := by
  simp only [layOutClass_eq, composeClass, bind_assoc, pure_bind]

theorem tame_composeClass (name : String) (parent : Word) : Tame (composeClass name parent) := by
  have hfill : ∀ base descriptor entries, Tame (fillClass base parent descriptor entries) :=
    fun _ _ _ => (tame_addressOf _).bind fun _ => (tame_write _ _).bind fun _ =>
      (tame_liftM _).bind fun _ => (tame_write _ _).bind fun _ => tame_writeEntries _ _ _
  exact tame_get fun w => (tame_liftM _).bind fun table => (tame_allocWords _).bind fun base =>
    (tame_liftM _).bind fun _ => (hfill _ _ _).bind fun _ => (tame_addressOf _).bind fun _ =>
      (tame_write _ _).bind fun _ => tame_pure _

theorem orderly_layOutClass (name : String) (parent : Word) :
    Orderly (layOutClass name parent) := by
  rw [layOutClass_eq_compose]
  refine (tame_composeClass name parent).orderly.bind fun _ =>
    Orderly.bind ?_ fun _ => orderly_pure _
  exact orderly_modify fun _ => follows_of_same rfl rfl rfl rfl

theorem orderly_instantiate (name : String) : Orderly (instantiate name) := by
  refine orderly_get fun w => ?_
  generalize w.module.hierarchy.classes.length + 1 = steps
  clear w
  induction steps generalizing name with
  | zero => exact (tame_throw _).orderly
  | succ steps ih =>
    refine orderly_get fun w => ?_
    split
    · exact orderly_pure _
    · refine (orderly_liftM _).bind fun decl => ?_
      cases decl.superclass with
      | none => exact (orderly_pure _).bind fun _ => orderly_layOutClass _ _
      | some superclass => exact (ih superclass).bind fun _ => orderly_layOutClass _ _

theorem orderly_layOutConformance (c : Conformance) : Orderly (layOutConformance c) := by
  have hwitnesses : ∀ (base : Word) (witnesses : List String) (start : Nat),
      Orderly (writeWitnesses base start witnesses) := by
    intro base witnesses
    induction witnesses with
    | nil => exact fun _ => orderly_pure _
    | cons witness rest ih =>
      exact fun _ => (tame_addressOf _).orderly.bind fun _ => (orderly_liftM _).bind fun _ =>
        (tame_write _ _).orderly.bind fun _ => ih _
  exact (tame_allocWords _).orderly.bind fun _ => (tame_addressOf _).orderly.bind fun _ =>
    (tame_write _ _).orderly.bind fun _ => (hwitnesses _ _ _).bind fun _ =>
      orderly_modify fun _ => follows_of_same rfl rfl rfl rfl

/-- Laying out all tables. -/
theorem orderly_layOut : Orderly layOut :=
  orderly_get fun _ =>
    (orderly_forM _ (fun _ => (orderly_instantiate _).bind fun _ => orderly_pure _) _).bind
      fun _ => orderly_forM _ orderly_layOutConformance _

/-! ### Requests -/

theorem orderly_implement (symbol : String) (body : NativeBody) :
    Orderly (implement symbol body) := by
  intro w hw
  rw [implement, Step.ends_bind, Step.ends_get]
  split
  · exact (tame_fail _).orderly w hw
  · next m hm =>
    rw [Step.ends_bind, Step.ends_liftM]
    refine ⟨fun s hs => ?_, fun _ _ => .refl w⟩
    rw [onMachine_eq_ok] at hs
    rw [Step.ends_bind]
    refine ((tame_addressOf symbol).orderly w hw).imp (fun _ w' h => ?_) fun _ _ h => h
    rw [Step.ends_modify]
    refine ⟨fun hw => ?_, h.layout, fun symbol' i hi => ?_⟩
    · have hw' := h.linked hw
      exact ⟨hw'.sound, hw'.keys, hw'.owns, hw'.apart⟩
    · rw [Table.get?_insert] at hi
      split at hi
      · next heq =>
        cases hi
        exact .inr ⟨heq, _, m, hs⟩
      · exact h.implementations symbol' i hi

theorem orderly_newObject (className : String) : Orderly (newObject className) :=
  (orderly_instantiate _).bind fun _ => (tame_allocWords _).orderly.bind fun _ =>
    (tame_write _ _).orderly.bind fun _ => orderly_pure _

theorem orderly_callThunk (m : Method) (c : LogicalCall) : Orderly (callThunk m c) := by
  have hpublished : Orderly (publishedFrameSize m) := by
    unfold publishedFrameSize
    split
    · refine (orderly_withModule (Module.keepsLayout_asyncPointer m)).bind fun _ =>
        orderly_get fun w => ?_
      split
      · exact orderly_pure _
      · exact orderly_pure _
    · exact orderly_pure _
  exact (orderly_withModule (Module.keepsLayout_declareThunk m)).bind fun _ =>
    (orderly_withModule (Module.keepsLayout_defineThunk m)).bind fun _ =>
      hpublished.bind fun _ => (tame_addressOf _).orderly.bind fun _ =>
        (tame_invoke _ _ _ _).orderly

theorem orderly_callImplementation (symbol : String) (c : LogicalCall) :
    Orderly (callImplementation symbol c) := by
  refine orderly_get fun w => ?_
  split
  · exact (tame_fail _).orderly
  · exact (tame_addressOf _).orderly.bind fun _ => (tame_invoke _ _ _ _).orderly

theorem orderly_declareDescriptor (m : Method) :
    Orderly (withModule (Module.declareDescriptor m)) :=
  orderly_withModule (Module.keepsLayout_of_quietly (Module.quietly_declareDescriptor m))

theorem orderly_callLookup (className : String) (metadata : Word) (m : Method) :
    Orderly (callLookup className metadata m) := by
  refine (orderly_withModule (Module.keepsLayout_of_quietly fun v =>
    Module.quietly_defineLookup v)).bind fun _ => (orderly_declareDescriptor m).bind fun _ =>
      (tame_addressOf _).orderly.bind fun _ => (tame_addressOf _).orderly.bind fun _ =>
        (tame_call _ _).orderly.bind fun results => ?_
  split
  · exact orderly_pure _
  · exact (tame_fail _).orderly

theorem orderly_askRuntime (className : String) (metadata : Word) (m : Method) :
    Orderly (askRuntime className metadata m) :=
  orderly_get fun _ => (orderly_liftM _).bind fun _ => (tame_addressOf _).orderly.bind fun _ =>
    (orderly_declareDescriptor m).bind fun _ => (tame_addressOf _).orderly.bind fun _ =>
      (tame_lookupClassMethod _ _ _).orderly

end World

/-! ### Operations -/

/-- Everything that a machine can be asked: a request of it or of its module, a symbol, a
call of a pointer, a look-up, and the use of memory. -/
inductive Operation where
  | request (r : Request)
  | query (q : Module.Query)
  | addressOf (symbol : String)
  | call (callee : Word) (args : List Word)
  | lookup (metadata descriptor typeDescriptor : Word)
  | alloc (bytes : Nat)
  | write (a value : Word)
  | writeWords (a : Word) (words : List Word)
  | take (a : Word)
  | takeWords (a : Word) (count : Nat)

/-- Do what is asked, and forget the answer. -/
def Operation.run : Operation → Run Unit
  | request r => r.run
  | query q => World.withModule q.ask
  | addressOf symbol => do let _ ← World.addressOf symbol
  | call callee args => do let _ ← World.call callee args
  | lookup metadata descriptor typeDescriptor => do
    let _ ← World.lookupClassMethod metadata descriptor typeDescriptor
  | alloc bytes => do let _ ← World.withMemory (Memory.alloc bytes)
  | write a value => World.write a value
  | writeWords a words => World.withMemory (Memory.writeWords a words)
  | take a => do let _ ← World.withMemory (Memory.take a)
  | takeWords a count => do let _ ← World.withMemory (Memory.takeWords a count)

namespace World

variable {α : Type} {u : Module} {w : World}

theorem orderly_forget {x : Run α} (h : Orderly x) : Orderly (do let _ ← x) :=
  h.bind fun _ => orderly_pure _

/-- Every operation is orderly, whether or not it fails. -/
theorem orderly_run (op : Operation) : Orderly op.run := by
  cases op with
  | request r =>
    cases r with
    | implement symbol body => exact orderly_implement symbol body
    | newObject className => exact orderly_forget (orderly_newObject className)
    | callThunk m c => exact orderly_forget (orderly_callThunk m c)
    | callImplementation symbol c => exact orderly_forget (orderly_callImplementation symbol c)
    | callLookup className metadata m =>
      exact orderly_forget (orderly_callLookup className metadata m)
    | askRuntime className metadata m =>
      exact orderly_forget (orderly_askRuntime className metadata m)
  | query q => exact orderly_withModule (Module.keepsLayout_ask q)
  | addressOf symbol => exact orderly_forget (tame_addressOf symbol).orderly
  | call callee args => exact orderly_forget (tame_call callee args).orderly
  | lookup metadata descriptor typeDescriptor =>
    exact orderly_forget (tame_lookupClassMethod _ _ _).orderly
  | alloc bytes => exact orderly_forget (tame_alloc bytes).orderly
  | write a value => exact (tame_write a value).orderly
  | writeWords a words => exact (tame_writeWords a words).orderly
  | take a => exact orderly_forget (tame_take a).orderly
  | takeWords a count => exact orderly_forget (tame_takeWords a count).orderly

/-- The worlds that operations lead to from a machine that was booted with the module. -/
inductive Operated (u : Module) : World → Prop where
  | boot {machine : Machine} (hboot : u.boot = .ok machine) : Operated u ⟨u, machine⟩
  | operate {w : World} (hw : Operated u w) (op : Operation) : Operated u (op.run.final w)

theorem operated_start (h : u.boot.isOk = true) : Operated u u.start := by
  unfold Module.start
  cases hboot : u.boot with
  | ok machine => exact .boot hboot
  | error fault =>
    rw [hboot] at h
    cases h

/-- A world whose implementations are called with native signatures for the target. -/
structure Installed (u : Module) (w : World) : Prop where
  linked : w.Linked
  layout : w.module.layout = u.layout
  implementations : ∀ symbol i, w.machine.implementations.get? symbol = some i →
    i.symbol = symbol ∧ ∃ p m, u.layout.lower p m = .ok i.signature

theorem Installed.follows {w' : World} (h : Installed u w) (hf : Follows w w') :
    Installed u w' where
  linked := hf.linked h.linked
  layout := hf.layout.trans h.layout
  implementations symbol i hi := by
    rcases hf.implementations symbol i hi with hi | hi
    · exact h.implementations symbol i hi
    · rwa [h.layout] at hi

/-- A world in which nothing was done yet. -/
theorem installed_empty (u : Module) (signatures : Table String Method) :
    Installed u ⟨u, { signatures }⟩ where
  linked := by
    refine ⟨Memory.sound_empty, List.nodup_nil, fun _ _ h => ?_, fun _ _ _ h => ?_⟩
    · cases h
    · cases h
  layout := rfl
  implementations _ _ h := by cases h

theorem installed_of_boot {machine : Machine} (h : u.boot = .ok machine) :
    Installed u ⟨u, machine⟩ := by
  rw [Module.boot, Attempt.bind_eq_ok] at h
  obtain ⟨implementations, -, h⟩ := h
  simp only at h
  split at h
  · next w heq =>
    cases h
    have hstart := installed_empty u
      (implementations.foldl (fun t p => t.insert p.1 p.2) {})
    have hw := hstart.follows ((orderly_layOut _ hstart.linked).ok heq)
    exact ⟨⟨hw.linked.sound, hw.linked.keys, hw.linked.owns, hw.linked.apart⟩, rfl,
      hw.implementations⟩
  · cases h

/-- Whatever is asked of a machine, in any order. -/
theorem Operated.installed (h : Operated u w) : Installed u w := by
  induction h with
  | boot hboot => exact installed_of_boot hboot
  | operate _ op ih => exact ih.follows (Step.Ends.final (orderly_run op _ ih.linked))

end World

end Dispatch
