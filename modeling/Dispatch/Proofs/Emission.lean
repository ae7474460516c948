import Dispatch.Proofs.Coherence.Check
import Dispatch.Proofs.Thunk.Shape

/-!
# Emission

Whatever has been asked of a module before, the dispatch thunk of a method is generated
and is well formed, if the tables have a place for the method, its types are known and its
sizes fit.  Nothing else that a request does gets in the way: declarations stay what they
were, and requests that fail leave no bodies behind.

## Main definitions

* `Layout.SizesFit`, `Hierarchy.Answers`, `Module.Askable` — what a method must have.
* `Module.Quiet` — steps that leave types and thunks alone.
* `Module.Formed` — a module all of whose thunks are well formed.
* `Module.Query`, `Module.after` — requests, and what they make of a module.

## Main results

* `Module.Formed.ends_defineThunk` — generating one thunk.
* `Module.Formed.ask`, `Module.Fresh.formed_after` — one request, and any number of them.
* `Module.defineThunk_wellFormed` — generating a thunk after any requests.
-/

namespace Dispatch

open Attempt

/-! ### Sizes -/

namespace Layout

variable {l : Layout} {p q : Pool} {m : Method} {s : Lowered}

/-- The sizes that the calls of a method depend on fit. -/
structure SizesFit (l : Layout) (p : Pool) (m : Method) : Prop where
  bindings : m.signature.generics.params + m.signature.generics.requirements < Size.limit
  /-- A value that is passed by address can be copied. -/
  values : ∀ type ∈ m.signature.params, ∀ schema, l.passing p type = .ok (.indirect schema) →
    8 * schema.components.length < Size.limit
  /-- The context frame can be allocated. -/
  frame : m.convention.isAsync = true → ∀ s, l.Describes p m s → 8 * s.frameEnd < Size.limit

theorem exists_describes (hm : m.Known p)
    (hbindings : m.signature.generics.params + m.signature.generics.requirements < Size.limit) :
    ∃ s, l.Describes p m s := by
  have hcarrier : ∀ type, (∃ t, p.tree type = .ok t) → ∃ c, l.carrier p type = .ok c := by
    rintro type ⟨t, ht⟩
    exact ⟨⟨type, l.passingOf t⟩, by rw [carrier, passing_of_tree ht]; rfl⟩
  obtain ⟨carriers, hcarriers⟩ := exists_mapM_ok fun type ht => hcarrier type (hm.params type ht)
  obtain ⟨result, hresult⟩ := hcarrier _ hm.result
  have hcount : m.signature.generics.bindingCount
      = .ok (m.signature.generics.params + m.signature.generics.requirements) := by
    rw [Generics.bindingCount, addSize, Size.add?_eq_some_iff.mpr ⟨rfl, hbindings⟩, Attempt.fits]
  exact ⟨⟨m.convention, m.isWitness, m.signature.throws, carriers, result, _, none⟩,
    rfl, rfl, rfl, hcarriers, hresult, hcount⟩

/-- A method has a native signature if its types are known and its sizes fit. -/
theorem exists_lower (hl : l.frameEdits = []) (hm : m.Known p) (h : l.SizesFit p m) :
    ∃ s, l.lower p m = .ok s := by
  obtain ⟨s, hs⟩ := exists_describes (l := l) hm h.bindings
  rw [lower, hs.carriers, ok_bind, hs.result, ok_bind, hs.bindingCount, ok_bind]
  cases ha : m.convention.isAsync with
  | false => exact ⟨_, rfl⟩
  | true =>
    rcases hs.standardFrame with ⟨hframe, -⟩ | ⟨-, hlimit⟩
    · rw [frame, hframe, hl]
      exact ⟨_, rfl⟩
    · exact absurd (h.frame ha s hs) (Nat.not_lt.mpr hlimit)

theorem SizesFit.of_carrier (h : l.SizesFit p m) (hs : l.lower p m = .ok s) :
    ∀ c ∈ s.carriers, ∀ schema, c.passing = .indirect schema →
      8 * schema.components.length < Size.limit := by
  intro c hc schema hschema
  obtain ⟨type, htype, hcarrier⟩ := mem_of_mem_mapM (lowers_of_lower hs).carriers c hc
  refine h.values type htype schema ?_
  rw [← hschema]
  exact (carrier_eq_ok hcarrier).2

/-- What the signature says apart from the frame decides the size of the frame. -/
theorem Describes.frameEnd_eq {s' : Lowered} (h : l.Describes p m s) (h' : l.Describes p m s') :
    s'.frameEnd = s.frameEnd := by
  have hthrows : s'.throws = s.throws := h'.throws.trans h.throws.symm
  have hwitness : s'.witness = s.witness := h'.witness.trans h.witness.symm
  have hcarriers : s'.carriers = s.carriers := Except.ok.inj (h'.carriers.symm.trans h.carriers)
  have hresult : s'.result = s.result := Except.ok.inj (h'.result.symm.trans h.result)
  have hcount : s'.bindingCount = s.bindingCount :=
    Except.ok.inj (h'.bindingCount.symm.trans h.bindingCount)
  obtain ⟨_, _, _, _, _, _, _⟩ := s'
  subst hthrows hwitness hcarriers hresult hcount
  rfl

/-- The sizes fit if the method has a native signature whose values have sizes. -/
theorem sizesFit_of_lower (hl : l.frameEdits = []) (hs : l.lower p m = .ok s) (hsized : s.Sized) :
    l.SizesFit p m := by
  have hlowers := lowers_of_lower hs
  refine ⟨?_, fun type htype schema hschema => ?_, fun hasync s' hs' => ?_⟩
  · have hcount := hlowers.bindingCount
    rw [Generics.bindingCount, addSize, Size.add?] at hcount
    split at hcount
    · assumption
    · cases hcount
  · obtain ⟨c, hc, hcarrier⟩ := mem_of_mapM hlowers.carriers type htype
    have hpassing := (carrier_eq_ok hcarrier).2
    rw [hschema] at hpassing
    exact hsized c (Or.inl hc) schema (Except.ok.inj hpassing).symm
  · rw [hlowers.toDescribes.frameEnd_eq hs']
    rcases frame_of_lower hl hs with ⟨hflat, -⟩ | ⟨-, -, hlimit⟩
    · rw [hlowers.convention, hasync] at hflat
      cases hflat
    · exact hlimit

end Layout

/-! ### Places -/

/-- The declarations say where a method's implementation is found and, in code that signs
with a key, what its table entries are signed with. -/
structure Hierarchy.Answers (h : Hierarchy) (p : Pool) (key : Option Key) (m : Method) :
    Prop where
  witness : m.isWitness = true → ∃ index, h.witnessIndex m = .ok index
  slot : m.isWitness = false → ∃ slot, h.slot m = .ok slot
  discriminator : m.isWitness = false → key.isSome = true → ∃ d, h.methodDiscriminator p m = .ok d

theorem Hierarchy.Answers.place {h : Hierarchy} {p : Pool} {key : Option Key} {m : Method}
    (ha : h.Answers p key m) : ∃ target, Target.ofMethod h p key m = .ok target := by
  rw [Target.ofMethod]
  cases hw : m.isWitness with
  | true =>
    obtain ⟨index, hindex⟩ := ha.witness hw
    rw [hindex]
    exact ⟨_, rfl⟩
  | false =>
    obtain ⟨slot, hslot⟩ := ha.slot hw
    rw [hslot]
    cases key with
    | none => exact ⟨_, rfl⟩
    | some k =>
      obtain ⟨d, hd⟩ := ha.discriminator hw rfl
      rw [Option.mapM_some, Hierarchy.signing, hd]
      exact ⟨_, rfl⟩

namespace Module

variable {u v v' : Module} {m : Method} {s : Lowered} {entry : Entry Lowered} {className : String}

/-- Nothing stands in the way of generating the thunk of a method. -/
structure Askable (v : Module) (m : Method) : Prop where
  /-- The types are known, and generic only over the method's own parameters. -/
  closed : m.Closed v.pool
  answers : v.hierarchy.Answers v.pool v.options.signingKey m
  sizes : v.layout.SizesFit v.pool m

/-! ### Steps that leave types and thunks alone -/

/-- Only look-up functions and globals have changed. -/
def Quiet (v v' : Module) : Prop := ∃ lookups globals, v' = { v with lookups, globals }

theorem Quiet.refl (v : Module) : Quiet v v := ⟨_, _, rfl⟩

theorem Quiet.trans {v'' : Module} (h : Quiet v v') (h' : Quiet v' v'') : Quiet v v'' := by
  obtain ⟨_, _, rfl⟩ := h
  obtain ⟨_, _, rfl⟩ := h'
  exact ⟨_, _, rfl⟩

/-- However the step ends, only look-up functions and globals have changed. -/
def Quietly {α : Type} (x : Generate α) (v : Module) : Prop :=
  Step.Ends x v (fun _ v' => Quiet v v') fun _ v' => Quiet v v'

section Quietly

variable {α β : Type} {x : Generate α} {f : α → Generate β}

theorem quietly_pure (a : α) : Quietly (pure a) v := .refl v

theorem Quietly.bind (hx : Quietly x v) (hf : ∀ a v', Quiet v v' → Quietly (f a) v') :
    Quietly (x >>= f) v :=
  Step.Ends.bind_rel hx hf fun _ _ h h' => h.trans h'

theorem quietly_liftM (attempt : Attempt α) : Quietly (liftM attempt) v := by
  cases attempt <;> exact .refl v

theorem quietly_get : Quietly get v := .refl v

theorem quietly_mapM {g : β → Generate α} (l : List β) (h : ∀ b v, Quietly (g b) v) (v : Module) :
    Quietly (l.mapM g) v := by
  induction l generalizing v with
  | nil => exact quietly_pure []
  | cons b rest ih =>
    rw [List.mapM_cons]
    exact (h b v).bind fun a v' _ => (ih v').bind fun _ _ _ => quietly_pure _

end Quietly

theorem quietly_defineGlobal (symbol : String) (g : Global) : Quietly (defineGlobal symbol g) v :=
  ⟨_, _, rfl⟩

theorem quietly_definePointer (symbol : String) (frame : Option Frame) :
    Quietly (definePointer symbol frame) v := by
  cases frame with
  | none => exact quietly_pure _
  | some frame => exact quietly_defineGlobal _ _

theorem quietly_declareDescriptor (m : Method) (v : Module) : Quietly (declareDescriptor m) v := by
  have hdefine : ∀ p v, Quietly (do
      let symbol ← (m.descriptorSymbol p : Attempt String)
      defineGlobal symbol (.methodDescriptor m)
      return symbol : Generate String) v := fun p v =>
    (quietly_liftM _).bind fun _ _ _ => (quietly_defineGlobal _ _).bind fun _ _ _ =>
      quietly_pure _
  rw [declareDescriptor]
  refine quietly_get.bind fun u v' _ => ?_
  cases m.isWitness with
  | true => exact hdefine u.pool v'
  | false =>
    refine (quietly_liftM _).bind fun introduces v'' _ => ?_
    cases introduces with
    | true => exact hdefine u.pool v''
    | false => exact .refl v''

theorem quietly_candidate (c : ClassMethod) (v : Module) : Quietly (candidate c) v := by
  rw [candidate]
  refine (quietly_declareDescriptor _ _).bind fun _ _ _ => quietly_get.bind fun u _ _ => ?_
  cases u.options.signingKey with
  | none => exact (quietly_pure none).bind fun _ _ _ => quietly_pure _
  | some key =>
    rw [Option.mapM_some, map_eq_pure_bind]
    exact ((quietly_liftM _).bind fun _ _ _ => quietly_pure _).bind fun _ _ _ => quietly_pure _

theorem quietly_emitLookup (lookup : Entry Unit) (v : Module) :
    Quietly (emitLookup className lookup) v := by
  rw [emitLookup, planLookup]
  refine Quietly.bind ?_ fun _ _ _ => quietly_liftM _
  exact quietly_get.bind fun _ _ _ => (quietly_liftM _).bind fun _ _ _ =>
    (quietly_mapM _ quietly_candidate _).bind fun _ _ _ => (quietly_liftM _).bind fun _ _ _ =>
      quietly_pure _

theorem quietly_declareLookup (v : Module) : Quietly (declareLookup className) v := by
  rw [Quietly, declareLookup, Step.ends_bind, Step.ends_get]
  simp only [Registry.declare]
  cases v.lookups.get? className <;> exact ⟨_, _, rfl⟩

theorem quietly_defineLookup (v : Module) : Quietly (defineLookup className) v := by
  have hdefine : ∀ (emitted : Attempt Function) v, Quietly (do
      let u ← get
      let defined := u.lookups.define className emitted
      set { u with lookups := defined.2 }
      defined.1 : Generate Function) v := by
    intro emitted v
    rw [Quietly, Step.ends_bind, Step.ends_get]
    obtain ⟨body, lookups⟩ := v.lookups.define className emitted
    cases body <;> exact ⟨_, _, rfl⟩
  rw [defineLookup_eq]
  refine (quietly_declareLookup v).bind fun lookup v₁ _ => ?_
  cases lookup.body with
  | some body => exact quietly_pure body
  | none =>
    refine Quietly.bind ?_ fun emitted v₂ _ => hdefine emitted v₂
    rw [Quietly, Step.ends_observe]
    exact quietly_emitLookup lookup v₁

/-! ### Well-formed thunks -/

/-- An entry of the registry of thunks: the native signature of the method, and if there is
a body it is well formed. -/
structure IsFormed (v : Module) (m : Method) (entry : Entry Lowered) : Prop where
  known : m.Known v.pool
  declaration : v.layout.lower v.pool m = .ok entry.declaration
  body : ∀ f, entry.body = some f →
    ∃ code terminator, Thunk.WellFormed entry.declaration f code terminator

/-- A module for a target with standard frames, all of whose thunks are well formed. -/
structure Formed (v : Module) : Prop where
  frames : v.layout.frameEdits = []
  pool : v.pool.Distinct
  thunks : ∀ m entry, v.thunks.get? m = some entry → v.IsFormed m entry

namespace Formed

theorem quiet (h : v.Formed) (hq : Quiet v v') : v'.Formed := by
  obtain ⟨_, _, rfl⟩ := hq
  exact ⟨h.frames, h.pool, fun m entry he =>
    have hentry := h.thunks m entry he
    ⟨hentry.known, hentry.declaration, hentry.body⟩⟩

theorem grows (h : v.Formed) (hg : v.Grows v') : v'.Formed := by
  have hlayout : v'.layout = v.layout := by rw [hg.rest]
  have hthunks : v'.thunks = v.thunks := by rw [hg.rest]
  refine ⟨hlayout ▸ h.frames, hg.distinct, fun m entry he => ?_⟩
  rw [hthunks] at he
  have hentry := h.thunks m entry he
  refine ⟨hentry.known.extends hg.pool, ?_, hentry.body⟩
  rw [hlayout, hentry.known.lower_eq hg.pool]
  exact hentry.declaration

theorem insert (h : v.Formed) (he : v.IsFormed m entry) {thunks : Registry Method Lowered}
    (hview : thunks.view = v.thunks.view.insert m entry) : Formed { v with thunks } where
  frames := h.frames
  pool := h.pool
  thunks m' entry' h' := by
    rw [Registry.get?_of_view hview] at h'
    split at h'
    · next heq =>
      cases h'
      exact heq ▸ ⟨he.known, he.declaration, he.body⟩
    · have hentry := h.thunks m' entry' h'
      exact ⟨hentry.known, hentry.declaration, hentry.body⟩

/-- Declaring a thunk fixes the native signature, if there is one. -/
theorem ends_declareThunk (h : v.Formed) (m : Method) :
    Step.Ends (declareThunk m) v (fun entry v' => v'.Formed ∧ v'.thunks.get? m = some entry ∧
      ∃ thunks globals, v' = { v with thunks, globals })
      fun _ v' => v' = v ∧ ¬ v.Askable m := by
  -- an async function pointer is not a thunk
  have hpointer : ∀ (entry : Entry Lowered) (v₁ : Module), v₁.Formed →
      v₁.thunks.get? m = some entry → (∃ thunks, v₁ = { v with thunks }) →
      Step.Ends (do definePointer entry.symbol entry.declaration.frame; return entry : Generate _)
        v₁ (fun entry v' => v'.Formed ∧ v'.thunks.get? m = some entry ∧
          ∃ thunks globals, v' = { v with thunks, globals }) fun _ v' => v' = v ∧ ¬ v.Askable m := by
    rintro entry v₁ h₁ hget ⟨thunks, rfl⟩
    cases hframe : entry.declaration.frame with
    | none => exact ⟨h₁, hget, thunks, _, rfl⟩
    | some frame => exact ⟨h₁.quiet ⟨_, _, rfl⟩, hget, thunks, _, rfl⟩
  rw [declareThunk, Step.ends_bind, Step.ends_get, Registry.declare]
  cases hget : v.thunks.get? m with
  | some entry => exact hpointer entry v h hget ⟨_, rfl⟩
  | none =>
    cases hd : v.thunkDeclaration m with
    | error fault =>
      refine ⟨rfl, fun hask => ?_⟩
      obtain ⟨symbol, hsymbol⟩ := hask.closed.known.exists_entitySymbol .dispatchThunk
      obtain ⟨s, hs⟩ := Layout.exists_lower h.frames hask.closed.known hask.sizes
      cases hd.symm.trans (thunkDeclaration_eq_ok.mpr ⟨hsymbol, hs⟩)
    | ok r =>
      obtain ⟨symbol, s⟩ := r
      obtain ⟨hsymbol, hs⟩ := thunkDeclaration_eq_ok.mp hd
      have hentry : v.IsFormed m { symbol, declaration := s } :=
        ⟨Method.known_of_entitySymbol hsymbol, hs, fun _ h => by cases h⟩
      exact hpointer { symbol, declaration := s } _ (h.insert hentry (Registry.view_add hget _))
        (Registry.get?_add hget _) ⟨_, rfl⟩

/-- There is well-formed code for a thunk that can be asked for. -/
theorem ends_emitThunk (h : v.Formed) (he : v.IsFormed m entry) :
    Step.Ends (emitThunk m entry) v (fun f v' => v'.Formed ∧ v'.thunks = v.thunks ∧
      ∃ code terminator, Thunk.WellFormed entry.declaration f code terminator)
      fun _ v' => v'.Formed ∧ v'.thunks = v.thunks ∧ ¬ v.Askable m := by
  rw [emitThunk, Step.ends_bind]
  refine (ends_planThunk h.pool m entry.declaration).imp (fun plan v₁ h₁ => ?_)
    fun _ v₁ h₁ => ⟨h.grows h₁.1, by rw [h₁.1.rest], fun hask => h₁.2 hask.closed⟩
  obtain ⟨rfl, hgrows⟩ := h₁
  rw [emitPlanned_eq (Layout.isSome_frame_of_lower he.declaration), Step.ends_bind]
  refine Step.ends_of_ok (run_definePointer _ entry) ?_
  have hformed : Formed { v₁ with globals := v₁.withPointer entry } :=
    (h.grows hgrows).quiet ⟨_, _, rfl⟩
  have hhierarchy : v₁.hierarchy = v.hierarchy := by rw [hgrows.rest]
  have hoptions : v₁.options = v.options := by rw [hgrows.rest]
  have hthunks : v₁.thunks = v.thunks := by rw [hgrows.rest]
  refine Step.ends_bind.mpr (Step.ends_get.mpr (Step.ends_liftM.mpr
    ⟨fun f hf => ⟨hformed, hthunks, ?_⟩, fun fault hf => ⟨hformed, hthunks, fun hask => ?_⟩⟩))
  · exact Thunk.wellFormed_of_function h.frames he.declaration hf
  · obtain ⟨f, -, hf', -⟩ := exists_function he.declaration h.frames hask.closed
      hask.answers.place (hask.sizes.of_carrier he.declaration) hgrows.pool entry.symbol
    rw [← hhierarchy, ← hoptions, hf] at hf'
    cases hf'

/-- Generating the thunk of a method gives well-formed code, unless something stands in the
way. -/
theorem ends_defineThunk (h : v.Formed) (m : Method) :
    Step.Ends (defineThunk m) v (fun f v' => v'.Formed ∧
      ∃ s code terminator, v.layout.lower v.pool m = .ok s ∧ Thunk.WellFormed s f code terminator)
      fun _ v' => v'.Formed ∧ ¬ v.Askable m := by
  rw [defineThunk_eq, Step.ends_bind]
  refine (h.ends_declareThunk m).imp (fun entry v₁ h₁ => ?_) fun _ v₁ h₁ => ⟨h₁.1 ▸ h, h₁.2⟩
  obtain ⟨hv₁, hget, thunks, globals, rfl⟩ := h₁
  have hentry := hv₁.thunks m entry hget
  cases hbody : entry.body with
  | some body =>
    obtain ⟨code, terminator, hformed⟩ := hentry.body body hbody
    exact ⟨hv₁, entry.declaration, code, terminator, hentry.declaration, hformed⟩
  | none =>
    simp only [Step.ends_bind, Step.ends_observe]
    refine (hv₁.ends_emitThunk hentry).imp (fun f v₂ h₂ => ?_) fun fault v₂ h₂ => ?_
    · obtain ⟨hv₂, hthunks, code, terminator, hformed⟩ := h₂
      have hget₂ : v₂.thunks.get? m = some entry := by rw [hthunks, ← hget]
      have hentry₂ := hv₂.thunks m entry hget₂
      rw [Step.ends_get, Registry.define, hget₂]
      simp only [hbody, Step.ends_set, Step.ends_liftM_ok]
      have hinserted : v₂.IsFormed m { entry with body := some f } := by
        refine ⟨hentry₂.known, hentry₂.declaration, ?_⟩
        intro f' hf'
        cases hf'
        exact ⟨code, terminator, hformed⟩
      exact ⟨hv₂.insert hinserted (Registry.view_start_fill hget₂ f), entry.declaration, code,
        terminator, hentry.declaration, hformed⟩
    · obtain ⟨hv₂, hthunks, hno⟩ := h₂
      have hget₂ : v₂.thunks.get? m = some entry := by rw [hthunks, ← hget]
      rw [Step.ends_get, Registry.define, hget₂]
      simp only [hbody, Step.ends_set, Step.ends_liftM_error]
      exact ⟨⟨hv₂.frames, hv₂.pool, fun m' e' he' =>
        have hentry' := hv₂.thunks m' e' he'
        ⟨hentry'.known, hentry'.declaration, hentry'.body⟩⟩,
        fun hask => hno ⟨hask.closed, hask.answers, hask.sizes⟩⟩

end Formed

/-! ### Requests -/

/-- What a module can be asked for. -/
inductive Query where
  | intern (shape : Shape)
  | declareThunk (m : Method)
  | defineThunk (m : Method)
  | emitThunks (methods : List Method)
  | asyncPointer (m : Method)
  | declareDescriptor (m : Method)
  | declareLookup (className : String)
  | defineLookup (className : String)

/-- Ask, whatever the answer. -/
def Query.ask : Query → Generate Unit
  | intern shape => (fun _ => ()) <$> withPool (Pool.intern shape)
  | declareThunk m => (fun _ => ()) <$> Module.declareThunk m
  | defineThunk m => (fun _ => ()) <$> Module.defineThunk m
  | emitThunks methods => (fun _ => ()) <$> Module.emitThunks methods
  | asyncPointer m => (fun _ => ()) <$> Module.asyncPointer m
  | declareDescriptor m => (fun _ => ()) <$> Module.declareDescriptor m
  | declareLookup className => (fun _ => ()) <$> Module.declareLookup className
  | defineLookup className => (fun _ => ()) <$> Module.defineLookup className

/-- The module after some requests, one after the other; some may have failed. -/
def after (u : Module) (queries : List Query) : Module :=
  queries.foldl (fun v query => query.ask.final v) u

/-- However the step ends, all thunks are well formed. -/
def KeepsFormed {α : Type} (x : Generate α) (v : Module) : Prop :=
  Step.Ends x v (fun _ v' => v'.Formed) fun _ v' => v'.Formed

theorem Quietly.keepsFormed {α : Type} {x : Generate α} (hx : Quietly x v) (h : v.Formed) :
    KeepsFormed x v :=
  Step.Ends.imp hx (fun _ _ hq => h.quiet hq) fun _ _ hq => h.quiet hq

namespace Formed

theorem keepsFormed_declareThunk (h : v.Formed) (m : Method) : KeepsFormed (declareThunk m) v :=
  (h.ends_declareThunk m).imp (fun _ _ h' => h'.1) fun _ _ h' => h'.1 ▸ h

theorem keepsFormed_emitThunks (methods : List Method) (h : v.Formed) :
    KeepsFormed (emitThunks methods) v := by
  rw [emitThunks]
  induction methods generalizing v with
  | nil => exact h
  | cons m rest ih =>
    rw [KeepsFormed, List.mapM_cons, Step.ends_bind]
    refine (h.ends_defineThunk m).imp (fun f v' h' => ?_) fun _ _ h' => h'.1
    rw [Step.ends_bind]
    exact Step.Ends.imp (ih h'.1) (fun _ _ h'' => h'') fun _ _ h'' => h''

/-- A request leaves all thunks well formed, whether or not it fails. -/
theorem ask (h : v.Formed) (query : Query) : (query.ask.final v).Formed := by
  refine Step.Ends.final (P := Formed) ?_
  cases query with
  | intern shape =>
    rw [Query.ask, Step.ends_map, withPool, Step.ends_zoom]
    refine (Pool.ends_intern h.pool shape).imp (fun id q hq => ?_) fun _ _ hq => hq.elim
    exact h.grows ⟨hq.1, hq.2.1, rfl⟩
  | declareThunk m => exact Step.ends_map.mpr (h.keepsFormed_declareThunk m)
  | defineThunk m =>
    exact Step.ends_map.mpr ((h.ends_defineThunk m).imp (fun _ _ h' => h'.1) fun _ _ h' => h'.1)
  | emitThunks methods => exact Step.ends_map.mpr (h.keepsFormed_emitThunks methods)
  | asyncPointer m =>
    rw [Query.ask, Step.ends_map, Module.asyncPointer]
    split
    · rw [Step.ends_bind]
      exact h.keepsFormed_declareThunk m
    · exact h
  | declareDescriptor m =>
    exact Step.ends_map.mpr ((quietly_declareDescriptor m v).keepsFormed h)
  | declareLookup className => exact Step.ends_map.mpr ((quietly_declareLookup v).keepsFormed h)
  | defineLookup className => exact Step.ends_map.mpr ((quietly_defineLookup v).keepsFormed h)

end Formed

/-- A module for a target with standard frames, for which no thunk has been generated. -/
structure Fresh (u : Module) : Prop where
  frames : u.layout.frameEdits = []
  pool : u.pool.Distinct
  thunks : u.thunks.cells = []

/-- After any requests, all thunks are well formed. -/
theorem Fresh.formed_after (h : u.Fresh) (queries : List Query) : (u.after queries).Formed := by
  have hstart : u.Formed := ⟨h.frames, h.pool, fun m entry he => by
    cases (Registry.get?_of_cells_nil h.thunks m).symm.trans he⟩
  unfold after
  clear h
  induction queries generalizing u with
  | nil => exact hstart
  | cons query rest ih => exact ih (hstart.ask query)

/-- After any requests, the thunk of a method that can be asked for is generated, and it is
well formed for the native signature of the method. -/
theorem defineThunk_wellFormed (hu : u.Fresh) (queries : List Query)
    (h : (u.after queries).Askable m) :
    ∃ f v s code terminator, defineThunk m (u.after queries) = .ok f v ∧
      (u.after queries).layout.lower (u.after queries).pool m = .ok s ∧
      Thunk.WellFormed s f code terminator := by
  have hends := (hu.formed_after queries).ends_defineThunk m
  obtain ⟨f, v, hrun, -, s, code, terminator, hlower, hformed⟩ :=
    Step.Ends.exists_ok (hends.imp (fun _ _ h' => h') fun _ _ h' => h'.2 h)
  exact ⟨f, v, s, code, terminator, hrun, hlower, hformed⟩

end Module

/-! ### An outline -/

namespace Shapes

/-- The module after some requests, the first of which fails: the method has no descriptor of
its own. -/
def asked : Module :=
  unit.after [.declareDescriptor squareArea, .emitThunks [area], .defineLookup "Shape",
    .asyncPointer outline, .intern (.generic 0)]

/-- The thunk of the outline of a shape, which takes a value by address. -/
theorem defineThunk_wellFormed_outline :
    ∃ f v code terminator, Module.defineThunk outline asked = .ok f v ∧
      Thunk.WellFormed (signature outline) f code terminator ∧
      (signature outline).indirectParams = [1] ∧ terminator = .asyncExit := by
  have hchecks : outline.isClosed asked.pool = true ∧
      (asked.hierarchy.slot outline).isOk = true ∧
      (asked.hierarchy.methodDiscriminator asked.pool outline).isOk = true ∧
      asked.layout.lower asked.pool outline = .ok (signature outline) ∧
      (signature outline).isSized = true ∧
      (signature outline).indirectParams = [1] ∧
      (signature outline).convention = .async ∧ asked.layout.frameEdits = [] := by
    decide +kernel
  obtain ⟨hclosed, hslot, hsigned, hlower, hsized, hindirect, hasync, hframes⟩ := hchecks
  have hcoherent := coherent_unit
  have hfresh : unit.Fresh := ⟨hcoherent.frames, hcoherent.pool, hcoherent.thunks⟩
  have hask : asked.Askable outline := {
    closed := Method.closed_of_isClosed hclosed
    answers := ⟨nofun, fun _ => exists_ok hslot, fun _ _ => exists_ok hsigned⟩
    sizes := Layout.sizesFit_of_lower hframes hlower (Lowered.sized_of_isSized hsized) }
  obtain ⟨f, v, s, code, terminator, hrun, hs, hformed⟩ :=
    Module.defineThunk_wellFormed hfresh _ hask
  obtain rfl : signature outline = s := Except.ok.inj (hlower.symm.trans hs)
  refine ⟨f, v, code, terminator, hrun, hformed, hindirect, ?_⟩
  rcases hformed.leaves with ⟨-, hexit⟩ | ⟨hflat, -⟩
  · exact hexit
  · rw [hasync] at hflat
    cases hflat

end Shapes

end Dispatch
