import Dispatch.Proofs.Hierarchy
import Dispatch.Proofs.Registry
import Dispatch.Proofs.Serving
import Dispatch.Proofs.Symbols

/-!
# Modules under generation

Whatever is asked of a module, in whatever order, what has been generated for a method
or a class depends only on the module as it was at first.

## Main statements

* `Module.References` — methods that have thunk symbols, all different.
* `Module.Forwards` — a function is a dispatch thunk of a method.
* `Module.Generated` — the state of a module under generation.
* `Module.HasPointer` — the async function pointer of a thunk is there, if it has one.
* `Module.defineThunk_eq`, `Module.emitPlanned_eq` — a thunk that was declared is still there
  when it is defined, and its pointer is not written a second time.
* `Module.ends_declareThunk`, `Module.ends_defineThunk` — generating thunks keeps it.
-/

namespace Dispatch

/-! ### Lowered signatures -/

namespace Layout

variable {l : Layout} {p q : Pool} {m : Method} {s : Lowered} {type : TypeId}

theorem schema_of_passing {schema : Schema} (h : l.passing p type = .ok (.direct schema)) :
    l.schema p type = .ok schema ∧ schema.Packed := by
  rw [passing, Attempt.bind_eq_ok] at h
  obtain ⟨addressOnly, -, h⟩ := h
  cases addressOnly with
  | true => cases h
  | false =>
    simp only [Bool.false_eq_true, if_false, Attempt.bind_eq_ok] at h
    obtain ⟨schema', hschema, h⟩ := h
    split at h
    · cases h
    · next hdirect =>
      cases h
      refine ⟨hschema, ?_⟩
      rw [Layout.schema, Attempt.bind_eq_ok] at hschema
      obtain ⟨components, -, hschema⟩ := hschema
      cases hschema
      exact Schema.packed_ofComponents (by simpa using hdirect)

theorem carrier_eq_ok {c : Carrier} (h : l.carrier p type = .ok c) :
    c.type = type ∧ l.passing p type = .ok c.passing := by
  rw [carrier, Attempt.bind_eq_ok] at h
  obtain ⟨passing, hpassing, h⟩ := h
  cases h
  exact ⟨rfl, hpassing⟩

/-- A declared type of a method that comes with a carrier. -/
theorem Lowers.carrier_of_mem (h : l.Lowers p m s) {c : Carrier}
    (hc : c ∈ s.carriers ∨ c = s.result) :
    ∃ type, (type ∈ m.signature.params ∨ type = m.signature.result) ∧
      l.carrier p type = .ok c := by
  rcases hc with hc | rfl
  · obtain ⟨type, htype, h⟩ := Attempt.mem_of_mem_mapM h.carriers c hc
    exact ⟨type, Or.inl htype, h⟩
  · exact ⟨_, Or.inr rfl, h.result⟩

/-- A machine whose pool has grown passes values as the signature says. -/
theorem Lowers.knownTo (h : l.Lowers p m s) (hm : m.Known p) {w : World}
    (hl : w.module.layout = l) (hq : p.Extends w.module.pool) {c : Carrier}
    (hc : c ∈ s.carriers ∨ c = s.result) : c.KnownTo w := by
  intro schema hschema
  obtain ⟨type, htype, hcarrier⟩ := h.carrier_of_mem hc
  obtain ⟨rfl, hpassing⟩ := carrier_eq_ok hcarrier
  rw [hschema, ← hm.passing_eq hq htype] at hpassing
  rw [hl]
  exact schema_of_passing hpassing

end Layout

/-- The sizes of values that are passed by address fit. -/
def Lowered.Sized (s : Lowered) : Prop :=
  ∀ c, c ∈ s.carriers ∨ c = s.result → ∀ schema, c.passing = .indirect schema →
    8 * schema.components.length < Size.limit

theorem Layout.sound_of_lower {l : Layout} {p : Pool} {m : Method} {s : Lowered}
    (hl : l.frameEdits = []) (h : l.lower p m = .ok s) (hsized : s.Sized) : s.Sound := by
  have hlowers := lowers_of_lower h
  have hsound : ∀ c, c ∈ s.carriers ∨ c = s.result → c.Sound := by
    intro c hc
    refine ⟨fun schema hs => ?_, hsized c hc⟩
    obtain ⟨type, -, hcarrier⟩ := hlowers.carrier_of_mem hc
    obtain ⟨-, hpassing⟩ := carrier_eq_ok hcarrier
    rw [hs] at hpassing
    exact (schema_of_passing hpassing).2
  exact ⟨fun c hc => hsound c (Or.inl hc), hsound _ (Or.inr rfl), frame_of_lower hl h⟩

/-! ### Places of implementations -/

theorem Pool.Extends.isMetatype {p q : Pool} {type : TypeId} (hq : p.Extends q) {b : Bool}
    (h : p.isMetatype type = .ok b) : q.isMetatype type = .ok b := by
  rw [Pool.isMetatype, Attempt.bind_eq_ok] at *
  obtain ⟨shape, hshape, h⟩ := h
  exact ⟨shape, hq.shape hshape, h⟩

namespace Target

variable {h : Hierarchy} {p q : Pool} {m : Method} {key : Option Key} {t : Target}

theorem receiverIsMetadata_extends (hq : p.Extends q) {b : Bool}
    (hb : receiverIsMetadata p m = .ok b) : receiverIsMetadata q m = .ok b := by
  unfold receiverIsMetadata at *
  cases hk : m.kind with
  | onClass =>
    rw [hk] at hb
    exact hb
  | onInstance =>
    rw [hk] at hb
    exact hq.isMetatype hb

/-- It is known whether the receiver of a method with known types is metadata. -/
theorem receiverIsMetadata_of_closed (hm : m.Closed p) :
    ∃ b, receiverIsMetadata p m = .ok b := by
  unfold receiverIsMetadata
  cases m.kind with
  | onClass => exact ⟨true, rfl⟩
  | onInstance =>
    obtain ⟨t, ht, -⟩ := hm m.signature.selfType List.mem_cons_self
    rw [Pool.tree, Pool.maxDepth, Pool.treeTo, Attempt.bind_eq_ok] at ht
    obtain ⟨shape, hshape, -⟩ := ht
    simp only [Pool.isMetatype, hshape, Attempt.ok_bind]
    cases shape <;> exact ⟨_, rfl⟩

theorem discriminator_extends (hq : p.Extends q) {base : Method} {d : UInt16}
    (hd : (do return discriminator (← base.descriptorSymbol p) : Attempt UInt16) = .ok d) :
    (do return discriminator (← base.descriptorSymbol q) : Attempt UInt16) = .ok d := by
  obtain ⟨symbol, hsymbol, hd⟩ := Attempt.bind_eq_ok.mp hd
  have hknown := Method.known_of_entitySymbol hsymbol
  rw [Method.descriptorSymbol, hknown.entitySymbol_eq hq]
  exact Attempt.bind_eq_ok.mpr ⟨symbol, hsymbol, hd⟩

theorem signing_extends (hq : p.Extends q) {k : Key} {s : Signing}
    (hs : h.signing p k m = .ok s) : h.signing q k m = .ok s := by
  rw [Hierarchy.signing, Attempt.bind_eq_ok] at hs
  obtain ⟨d, hd, hs⟩ := hs
  rw [Hierarchy.signing, Attempt.bind_eq_ok]
  refine ⟨d, ?_, hs⟩
  unfold Hierarchy.methodDiscriminator at *
  split
  · next hw =>
    rw [if_pos hw] at hd
    exact discriminator_extends hq hd
  · next hw =>
    rw [if_neg hw] at hd
    obtain ⟨base, hbase, hd⟩ := Attempt.bind_eq_ok.mp hd
    exact Attempt.bind_eq_ok.mpr ⟨base, hbase, discriminator_extends hq hd⟩

/-- The place of a method's implementation stays when the pool grows. -/
theorem ofMethod_extends (hq : p.Extends q) (ht : ofMethod h p key m = .ok t) :
    ofMethod h q key m = .ok t := by
  unfold ofMethod at *
  split
  · next hw =>
    rw [if_pos hw] at ht
    exact ht
  · next hw =>
    rw [if_neg hw, Attempt.bind_eq_ok] at ht
    obtain ⟨slot, hslot, ht⟩ := ht
    rw [Attempt.bind_eq_ok] at ht
    obtain ⟨signing, hsigning, ht⟩ := ht
    rw [hslot, Attempt.ok_bind]
    cases key with
    | none =>
      rw [Option.mapM_none] at hsigning ⊢
      exact Attempt.bind_eq_ok.mpr ⟨signing, hsigning, ht⟩
    | some k =>
      rw [Option.mapM_some, Attempt.map_eq_ok] at hsigning
      obtain ⟨s, hs, rfl⟩ := hsigning
      rw [Attempt.orTrap_eq_ok] at hs
      refine Attempt.bind_eq_ok.mpr ⟨some s, ?_, ht⟩
      rw [Option.mapM_some, Attempt.map_eq_ok]
      exact ⟨s, Attempt.orTrap_eq_ok.mpr (signing_extends hq hs), rfl⟩

theorem isWitness_of_ofMethod {index : Nat} (ht : ofMethod h p key m = .ok (.witness index)) :
    m.isWitness = true := by
  unfold ofMethod at ht
  split at ht
  · assumption
  · rw [Attempt.bind_eq_ok] at ht
    obtain ⟨slot, -, ht⟩ := ht
    rw [Attempt.bind_eq_ok] at ht
    obtain ⟨signing, -, ht⟩ := ht
    cases ht

end Target

/-! ### What has been generated -/

namespace Module

open World (Caller)

variable {u v v' : Module} {refs : List Method} {m m' : Method} {s : Lowered} {f : Function}

/-- Methods that a module can be asked about: those that it declares, and perhaps
others.  Each has a thunk symbol, and no two have the same. -/
structure References (u : Module) (refs : List Method) : Prop where
  methods : ∀ c ∈ u.hierarchy.classes, ∀ d ∈ c.methods, d.method ∈ refs
  requirements : ∀ p ∈ u.hierarchy.protocols, ∀ r ∈ p.requirements, r ∈ refs
  symbols : ∀ m ∈ refs, ∃ symbol, m.thunkSymbol u.pool = .ok symbol
  distinct : ∀ m ∈ refs, ∀ m' ∈ refs, m.thunkSymbol u.pool = m'.thunkSymbol u.pool → m = m'

theorem References.known (h : u.References refs) (hm : m ∈ refs) : m.Known u.pool := by
  obtain ⟨symbol, hs⟩ := h.symbols m hm
  exact Method.known_of_entitySymbol hs

/-- A function that is a dispatch thunk of `m`, generated when the pool was `p`: it does
what `Thunk.forwardFlat` or `Thunk.forwardAsync` does. -/
structure Forwards (u : Module) (m : Method) (s : Lowered) (f : Function) (p : Pool)
    (target : Target) : Prop where
  pool : u.pool.Extends p
  place : Target.ofMethod u.hierarchy p u.options.signingKey m = .ok target
  flat : s.convention.isAsync = false → ∀ (call : Caller) (w : World) (parts : Parts Word),
    (∀ f args, World.KeepsModule (call f args)) → (∀ c ∈ s.carriers, c.KnownTo w) →
    s.result.KnownTo w → parts.Fits s →
    World.run call f parts.toList w = Thunk.forwardFlat call p m target s parts w
  async : s.convention.isAsync = true → ∀ (call : Caller) (w : World) (frame : Word),
    World.run call f [frame] w = Thunk.forwardAsync call p m target s frame w

/-- An entry in the registry of thunks. -/
structure IsThunk (u : Module) (refs : List Method) (m : Method) (entry : Entry Lowered) :
    Prop where
  mem : m ∈ refs
  symbol : m.thunkSymbol u.pool = .ok entry.symbol
  declaration : u.layout.lower u.pool m = .ok entry.declaration
  body : ∀ f, entry.body = some f → ∃ p target, u.Forwards m entry.declaration f p target

/-- A global with its symbol. -/
def IsGlobal (u : Module) (refs : List Method) (symbol : String) : Global → Prop
  | .methodDescriptor m => m ∈ refs ∧ m.descriptorSymbol u.pool = .ok symbol
  | .asyncPointer function size => symbol = asyncPointerSymbol function ∧
    ∃ m s frame, m ∈ refs ∧ m.thunkSymbol u.pool = .ok function ∧
      u.layout.lower u.pool m = .ok s ∧ s.frame = some frame ∧ size = frame.size

/-- What a look-up function knows about a method. -/
def knownCandidate (u : Module) (c : ClassMethod) : Attempt LookupCandidate := do
  let descriptor ← c.method.descriptorSymbol u.pool
  let signing ← u.options.signingKey.mapM fun key => u.hierarchy.signing u.pool key c.method
  return { descriptor, implementation := c.implementation, signing }

/-- What the look-up function of a class knows. -/
def lookupPlan (u : Module) (className : String) : Attempt LookupPlan := do
  let methods ← u.hierarchy.classMethods className
  let candidates ← (methods.filter fun c => c.visibility == .isPublic && !c.overridden).mapM
    u.knownCandidate
  let typeDescriptor ← u.hierarchy.typeDescriptor className
  return { candidates, typeDescriptor }

/-- An entry in the registry of look-up functions. -/
structure IsLookup (u : Module) (className : String) (entry : Entry Unit) : Prop where
  symbol : entry.symbol = classSymbol u.hierarchy.module className .lookupFunction
  body : ∀ f, entry.body = some f → ∃ plan, u.lookupPlan className = .ok plan ∧
    plan.function entry.symbol = .ok f

/-- The module `v` is `u` with what has been generated for it so far. -/
structure Generated (u : Module) (refs : List Method) (v : Module) : Prop where
  hierarchy : v.hierarchy = u.hierarchy
  layout : v.layout = u.layout
  options : v.options = u.options
  pool : u.pool.Extends v.pool
  distinct : v.pool.Distinct
  thunkKeys : v.thunks.view.keys.Nodup
  lookupKeys : v.lookups.view.keys.Nodup
  thunks : ∀ m entry, v.thunks.get? m = some entry → u.IsThunk refs m entry
  lookups : ∀ className entry, v.lookups.get? className = some entry → u.IsLookup className entry
  globals : ∀ symbol g, v.globals.get? symbol = some g → u.IsGlobal refs symbol g

variable {entry : Entry Lowered}

/-- An entry whose symbol no other key has is found by its symbol. -/
theorem bySymbol?_of_get? {κ δ : Type} [DecidableEq κ] {r : Registry κ δ} {key : κ} {e : Entry δ}
    (hkeys : r.view.keys.Nodup) (h : r.get? key = some e)
    (hkey : ∀ key' e', r.get? key' = some e' → e'.symbol = e.symbol → key' = key) :
    r.bySymbol? e.symbol = some e := by
  have hmem := Registry.mem_view h
  rw [Registry.bySymbol?_eq, Table.values, List.find?_map]
  cases hf : r.view.entries.find? ((fun e' => e'.symbol == e.symbol) ∘ Prod.snd) with
  | none => exact absurd (by simp) (List.find?_eq_none.mp hf _ hmem)
  | some found =>
    obtain ⟨key', e'⟩ := found
    have hsymbol : e'.symbol = e.symbol := by simpa using List.find?_some hf
    have h' : r.get? key' = some e' :=
      Registry.get?_of_mem_view hkeys (List.mem_of_find?_eq_some hf)
    obtain rfl := hkey key' e' h' hsymbol
    rw [h] at h'
    cases h'
    rfl

/-- A thunk is found by its symbol. -/
theorem Generated.bySymbol? (hv : Generated u refs v) (hrefs : u.References refs)
    (h : v.thunks.get? m = some entry) : v.thunks.bySymbol? entry.symbol = some entry := by
  refine bySymbol?_of_get? hv.thunkKeys h fun m' entry' h' hsymbol => ?_
  have ht := hv.thunks m entry h
  have ht' := hv.thunks m' entry' h'
  exact hrefs.distinct _ ht'.mem _ ht.mem (by rw [ht.symbol, ht'.symbol, hsymbol])

theorem Generated.grows (hv : Generated u refs v) (h : v.Grows v') : Generated u refs v' := by
  have hrest := h.rest
  refine ⟨?_, ?_, ?_, hv.pool.trans h.pool, h.distinct, ?_, ?_, ?_, ?_, ?_⟩ <;> rw [hrest]
  · exact hv.hierarchy
  · exact hv.layout
  · exact hv.options
  · exact hv.thunkKeys
  · exact hv.lookupKeys
  · exact hv.thunks
  · exact hv.lookups
  · exact hv.globals

/-! ### Declaring thunks -/

theorem Generated.insert (hv : Generated u refs v) (h : u.IsThunk refs m entry)
    {thunks : Registry Method Lowered} (hview : thunks.view = v.thunks.view.insert m entry) :
    Generated u refs { v with thunks } where
  hierarchy := hv.hierarchy
  layout := hv.layout
  options := hv.options
  pool := hv.pool
  distinct := hv.distinct
  thunkKeys := hview ▸ Table.nodup_keys_insert hv.thunkKeys
  lookupKeys := hv.lookupKeys
  thunks m' entry' h' := by
    rw [Registry.get?_of_view hview] at h'
    split at h'
    · next heq =>
      cases h'
      exact heq ▸ h
    · exact hv.thunks m' entry' h'
  lookups := hv.lookups
  globals := hv.globals

theorem Generated.insertNew (hv : Generated u refs v) {symbol : String} {g : Global}
    (h : u.IsGlobal refs symbol g) :
    Generated u refs { v with globals := v.globals.insertNew symbol g } where
  hierarchy := hv.hierarchy
  layout := hv.layout
  options := hv.options
  pool := hv.pool
  distinct := hv.distinct
  thunkKeys := hv.thunkKeys
  lookupKeys := hv.lookupKeys
  thunks := hv.thunks
  lookups := hv.lookups
  globals symbol' g' h' := by
    rw [Table.get?_insertNew] at h'
    split at h'
    · next heq =>
      subst heq
      cases hold : v.globals.get? symbol with
      | none =>
        rw [hold] at h'
        cases h'
        exact h
      | some g'' =>
        rw [hold] at h'
        cases h'
        exact hv.globals symbol _ hold
    · exact hv.globals symbol' g' h'

/-- The symbol of an async function pointer stands for nothing else. -/
theorem Generated.pointer (hv : Generated u refs v) (hrefs : u.References refs)
    (h : u.IsThunk refs m entry) {frame : Frame} (hf : entry.declaration.frame = some frame)
    {g : Global} (hg : v.globals.get? (asyncPointerSymbol entry.symbol) = some g) :
    g = .asyncPointer entry.symbol frame.size := by
  have hg := hv.globals _ g hg
  cases g with
  | methodDescriptor m' =>
    have h1 := last?_entitySymbol hg.2
    rw [last?_asyncPointerSymbol] at h1
    exact absurd h1 (by decide)
  | asyncPointer function size =>
    obtain ⟨hsymbol, m', s, frame', hm', hfunction, hlower, hframe, rfl⟩ := hg
    obtain rfl := asyncPointerSymbol_injective hsymbol
    have heq : m' = m := hrefs.distinct _ hm' _ h.mem (by rw [hfunction, h.symbol])
    subst heq
    rw [h.declaration] at hlower
    cases hlower
    rw [hf] at hframe
    cases hframe
    rfl

/-- There is an async function pointer for the entry, if the entry needs one. -/
def HasPointer (v : Module) (entry : Entry Lowered) : Prop :=
  ∀ frame, entry.declaration.frame = some frame →
    v.globals.get? (asyncPointerSymbol entry.symbol) = some (.asyncPointer entry.symbol frame.size)

/-- The globals after the pointer of an entry has been asked for. -/
def withPointer (v : Module) (entry : Entry Lowered) : Table String Global :=
  match entry.declaration.frame with
  | none => v.globals
  | some frame =>
    v.globals.insertNew (asyncPointerSymbol entry.symbol) (.asyncPointer entry.symbol frame.size)

theorem run_definePointer (v : Module) (entry : Entry Lowered) :
    definePointer entry.symbol entry.declaration.frame v
      = .ok ⟨⟩ { v with globals := v.withPointer entry } := by
  rw [withPointer]
  cases entry.declaration.frame <;> rfl

/-- Asking again for a pointer that is there changes nothing. -/
theorem HasPointer.withPointer (h : v.HasPointer entry) : v.withPointer entry = v.globals := by
  rw [Module.withPointer]
  cases hframe : entry.declaration.frame with
  | none => rfl
  | some frame =>
    have hget := h frame hframe
    simp only [Table.insertNew, hget]

theorem ends_definePointer (hv : Generated u refs v) (hrefs : u.References refs)
    (h : u.IsThunk refs m entry) :
    Step.Ends (definePointer entry.symbol entry.declaration.frame) v (fun _ v' =>
      Generated u refs v' ∧ v'.thunks = v.thunks ∧
      ∀ frame, entry.declaration.frame = some frame →
        v'.globals.get? (asyncPointerSymbol entry.symbol)
          = some (.asyncPointer entry.symbol frame.size)) fun _ _ => False := by
  cases hf : entry.declaration.frame with
  | none => exact ⟨hv, rfl, fun _ h => nomatch h⟩
  | some frame =>
    rw [definePointer, defineGlobal, Step.ends_modify]
    refine ⟨hv.insertNew ⟨rfl, m, entry.declaration, frame, h.mem, h.symbol, h.declaration, hf,
      rfl⟩, rfl, fun frame' hf' => ?_⟩
    cases hf'
    rw [Table.get?_insertNew, if_pos rfl]
    cases hg : v.globals.get? (asyncPointerSymbol entry.symbol) with
    | none => rfl
    | some g =>
      rw [hv.pointer hrefs h hf hg]
      rfl

theorem thunkDeclaration_eq_ok {symbol : String} :
    u.thunkDeclaration m = .ok (symbol, s) ↔
      m.thunkSymbol u.pool = .ok symbol ∧ u.layout.lower u.pool m = .ok s := by
  rw [thunkDeclaration, Attempt.bind_eq_ok]
  constructor
  · rintro ⟨symbol', hsymbol, h⟩
    obtain ⟨s', hs, h⟩ := Attempt.bind_eq_ok.mp h
    cases h
    exact ⟨hsymbol, Attempt.orTrap_eq_ok.mp hs⟩
  · rintro ⟨hsymbol, hs⟩
    exact ⟨symbol, hsymbol, Attempt.bind_eq_ok.mpr ⟨s, Attempt.orTrap_eq_ok.mpr hs, rfl⟩⟩

/-- A module declares a thunk as it would have done at first. -/
theorem Generated.thunkDeclaration_eq (hv : Generated u refs v) (hrefs : u.References refs)
    (hm : m ∈ refs) : v.thunkDeclaration m = u.thunkDeclaration m := by
  have hknown := hrefs.known hm
  rw [Module.thunkDeclaration, Module.thunkDeclaration, Method.thunkSymbol, Method.thunkSymbol,
    hknown.entitySymbol_eq hv.pool, hv.layout, hknown.lower_eq hv.pool]

/-- Declaring a thunk gives its entry, the same one every time. -/
theorem ends_declareThunk (hv : Generated u refs v) (hrefs : u.References refs) (hm : m ∈ refs) :
    Step.Ends (declareThunk m) v (fun entry v' => Generated u refs v' ∧
      v'.thunks.get? m = some entry ∧ (∀ e, v.thunks.get? m = some e → entry = e) ∧
      ∀ frame, entry.declaration.frame = some frame →
        v'.globals.get? (asyncPointerSymbol entry.symbol)
          = some (.asyncPointer entry.symbol frame.size))
      fun _ v' => v' = v ∧ ∀ s, u.layout.lower u.pool m ≠ .ok s := by
  rw [declareThunk, Step.ends_bind, Step.ends_get]
  cases hget : v.thunks.get? m with
  | some e =>
    rw [Registry.declare, hget]
    simp only [Step.ends_bind, Step.ends_liftM_ok, Step.ends_set]
    refine (ends_definePointer (v := v) hv hrefs (hv.thunks m e hget)).imp (fun _ v' h => ?_)
      fun _ _ h => h.elim
    obtain ⟨hv', hthunks, hpointer⟩ := h
    exact ⟨hv', by rw [hthunks]; exact hget, fun e' he' => by cases he'; rfl, hpointer⟩
  | none =>
    rw [Registry.declare, hget]
    rw [hv.thunkDeclaration_eq hrefs hm]
    cases hd : u.thunkDeclaration m with
    | error fault =>
      refine ⟨rfl, fun s hs => ?_⟩
      obtain ⟨symbol, hsymbol⟩ := hrefs.symbols m hm
      cases hd.symm.trans (thunkDeclaration_eq_ok.mpr ⟨hsymbol, hs⟩)
    | ok r =>
      obtain ⟨symbol, s⟩ := r
      obtain ⟨hsymbol, hs⟩ := thunkDeclaration_eq_ok.mp hd
      have hentry : u.IsThunk refs m { symbol, declaration := s } := by
        refine ⟨hm, hsymbol, hs, ?_⟩
        intro body hbody
        cases hbody
      simp only [Attempt.ok_bind, Attempt.pure_eq, Step.ends_bind, Step.ends_liftM_ok,
        Step.ends_set]
      refine (ends_definePointer (hv.insert hentry (Registry.view_add hget _)) hrefs hentry).imp
        (fun _ v' h => ?_) fun _ _ h => h.elim
      obtain ⟨hv', hthunks, hpointer⟩ := h
      refine ⟨hv', ?_, ?_, hpointer⟩
      · rw [hthunks, Registry.get?_add hget]
      · intro e he
        cases he

/-! ### Defining thunks -/

/-- Declaring a thunk gives the entry that is then in the registry. -/
theorem get?_declareThunk (h : declareThunk m v = .ok entry v') :
    v'.thunks.get? m = some entry := by
  obtain ⟨_, _, hget, h⟩ := Step.bind_eq_ok.mp h
  cases hget
  obtain ⟨⟨e, thunks⟩, _, hdeclare, h⟩ := Step.bind_eq_ok.mp h
  obtain ⟨hdeclare, rfl⟩ := Step.liftM_eq_ok.mp hdeclare
  obtain ⟨_, _, hset, h⟩ := Step.bind_eq_ok.mp h
  cases hset
  rw [Step.bind_of_ok (run_definePointer _ e)] at h
  cases h
  exact Registry.get?_declare hdeclare

/-- A declared thunk has not vanished when it is defined. -/
theorem defineThunk_eq (m : Method) : defineThunk m = (do
    let entry ← declareThunk m
    match entry.body with
    | some body => return body
    | none =>
      let emitted ← (emitThunk m entry).observe
      let u ← get
      let (body, thunks) := u.thunks.define m emitted
      set { u with thunks }
      body) := by
  refine Step.bind_congr_ok fun entry v v' h => ?_
  rw [Step.bind_of_ok Step.run_get, get?_declareThunk h]
  rfl

/-- Nothing stands in the way of generating the thunk of a method. -/
structure Emittable (u : Module) (m : Method) (s : Lowered) : Prop where
  closed : m.Closed u.pool
  place : ∃ target, Target.ofMethod u.hierarchy u.pool u.options.signingKey m = .ok target
  sized : s.Sized

/-- The code of a thunk forwards, or there is a reason why there is none.  `E` stands for
what follows when the implementation has no place, when it is not known whether the
receiver is metadata, or when a value that is passed by address is too large. -/
theorem forwards_function (hs : u.layout.lower u.pool m = .ok s) (hu : u.layout.frameEdits = [])
    {p : Pool} (hp : u.pool.Extends p) (symbol : String) {E : Prop}
    (htarget : ∀ fault, Target.ofMethod u.hierarchy p u.options.signingKey m = .error fault → E)
    (hmeta : ∀ fault, Target.receiverIsMetadata p m = .error fault → E)
    (hsize : ∀ c ∈ s.carriers, ∀ schema, c.passing = .indirect schema →
      Size.limit ≤ wordBytes * schema.components.length → E) :
    (∃ f target, Thunk.function p (Target.ofMethod u.hierarchy p u.options.signingKey m)
        { method := m, own := s, forwarded := s } symbol = .ok f ∧ u.Forwards m s f p target) ∨
      (∃ fault, Thunk.function p (Target.ofMethod u.hierarchy p u.options.signingKey m)
        { method := m, own := s, forwarded := s } symbol = .error fault) ∧ E := by
  have hwitness : s.witness = false → ∀ index,
      Target.ofMethod u.hierarchy p u.options.signingKey m = .ok (.witness index) → E := by
    intro hw index ht
    rw [(Layout.lowers_of_lower hs).witness, Target.isWitness_of_ofMethod ht] at hw
    cases hw
  rcases Layout.frame_of_lower hu hs with ⟨hflat, hnone⟩ | ⟨hasync, hframe, -⟩
  · rcases Thunk.function_flat hflat hnone symbol htarget hmeta hwitness hsize with
      ⟨f, t, hf, ht, -, hrun⟩ | hfails
    · refine Or.inl ⟨f, t, hf, hp, ht, fun _ => hrun, fun h => ?_⟩
      rw [hflat] at h
      cases h
    · exact Or.inr hfails
  · rcases Thunk.function_async (Convention.eq_async hasync) hframe symbol htarget hmeta hwitness
      hsize with ⟨f, t, hf, ht, -, hrun⟩ | hfails
    · refine Or.inl ⟨f, t, hf, hp, ht, fun h => ?_, fun _ => hrun⟩
      rw [hasync] at h
      cases h
    · exact Or.inr hfails

/-- There is code for a thunk, also in a larger pool. -/
theorem exists_function (hs : u.layout.lower u.pool m = .ok s) (hu : u.layout.frameEdits = [])
    (hclosed : m.Closed u.pool)
    (hplace : ∃ target, Target.ofMethod u.hierarchy u.pool u.options.signingKey m = .ok target)
    (hsize : ∀ c ∈ s.carriers, ∀ schema, c.passing = .indirect schema →
      8 * schema.components.length < Size.limit)
    {p : Pool} (hp : u.pool.Extends p) (symbol : String) :
    ∃ f target, Thunk.function p (Target.ofMethod u.hierarchy p u.options.signingKey m)
      { method := m, own := s, forwarded := s } symbol = .ok f ∧ u.Forwards m s f p target := by
  obtain ⟨target, ht⟩ := hplace
  obtain ⟨b, hb⟩ := Target.receiverIsMetadata_of_closed hclosed
  refine (forwards_function (E := False) hs hu hp symbol (fun fault hfault => ?_)
    (fun fault hfault => ?_) fun c hc schema hschema hlimit => ?_).resolve_right And.right
  · rw [Target.ofMethod_extends hp ht] at hfault
    cases hfault
  · rw [Target.receiverIsMetadata_extends hp hb] at hfault
    cases hfault
  · have := hsize c hc schema hschema
    simp only [wordBytes] at hlimit
    omega

/-- A thunk writes the async function pointer that its declaration wrote, and makes its code. -/
theorem emitPlanned_eq {plan : ThunkPlan}
    (h : plan.own.frame.isSome = plan.own.convention.isAsync) (symbol : String) :
    emitPlanned plan symbol = (do
      definePointer symbol plan.own.frame
      let u ← get
      Thunk.function u.pool
        (Target.ofMethod u.hierarchy u.pool u.options.signingKey plan.method) plan symbol) := by
  obtain ⟨convention, params, b, hrun, hname, hframe⟩ :=
    Thunk.run_enter h symbol plan.method.convention
  have henter : Step.run (Thunk.enter plan.own) (Builder.new symbol plan.method.convention)
      = .ok ((convention, params), b) := by rw [Step.run, hrun]
  have hrest : ∀ (p : Pool) (target : Attempt Target), (do
      let made ← Step.run (Thunk.forward p target plan convention params) b
      return made.2.finish : Generate Function) = liftM (Thunk.function p target plan symbol) := by
    intro p target
    have hemit : Thunk.emit p target plan (Builder.new symbol plan.method.convention)
        = Thunk.forward p target plan convention params b := Step.bind_of_ok hrun
    rw [Thunk.function, hemit, Step.run]
    cases Thunk.forward p target plan convention params b <;> rfl
  simp only [emitPlanned, henter, Step.liftM_ok, pure_bind, hname, hframe, hrest]

theorem ends_emitThunk (hv : Generated u refs v) (hrefs : u.References refs)
    (hu : u.layout.frameEdits = []) (h : u.IsThunk refs m entry) :
    Step.Ends (emitThunk m entry) v (fun f v' => Generated u refs v' ∧ v'.thunks = v.thunks ∧
      ∃ p target, u.Forwards m entry.declaration f p target)
      fun _ v' => Generated u refs v' ∧ v'.thunks = v.thunks ∧
        ¬ u.Emittable m entry.declaration := by
  rw [emitThunk, Step.ends_bind]
  refine (ends_planThunk hv.distinct m entry.declaration).imp (fun plan v' h' => ?_)
    fun _ v' h' => ?_
  · obtain ⟨rfl, hgrows⟩ := h'
    have hv' := hv.grows hgrows
    rw [emitPlanned_eq (Layout.isSome_frame_of_lower h.declaration), Step.ends_bind]
    refine (ends_definePointer hv' hrefs h).imp (fun _ v'' h'' => ?_) fun _ _ h'' => h''.elim
    obtain ⟨hv'', hthunks, -⟩ := h''
    have hthunks : v''.thunks = v.thunks := by rw [hthunks, hgrows.rest]
    rw [Step.ends_bind, Step.ends_get, hv''.hierarchy, hv''.options]
    rcases forwards_function (E := True) h.declaration hu hv''.pool entry.symbol
      (fun _ _ => trivial) (fun _ _ => trivial) (fun _ _ _ _ _ => trivial) with
      ⟨f, target, hf, hforwards⟩ | ⟨⟨fault, hf⟩, -⟩
    · simp only [hf, Step.ends_liftM_ok]
      exact ⟨hv'', hthunks, _, target, hforwards⟩
    · simp only [hf, Step.ends_liftM_error]
      refine ⟨hv'', hthunks, fun hemit => ?_⟩
      obtain ⟨f, -, hf', -⟩ := exists_function h.declaration hu hemit.closed hemit.place
        (fun c hc => hemit.sized c (Or.inl hc)) hv''.pool entry.symbol
      rw [hf] at hf'
      cases hf'
  · refine ⟨hv.grows h'.1, by rw [h'.1.rest], fun hemit => h'.2 ?_⟩
    exact hemit.closed.extends hv.pool

/-- Defining a thunk gives its code, unless there is a reason why there is none. -/
theorem ends_defineThunk (hv : Generated u refs v) (hrefs : u.References refs)
    (hu : u.layout.frameEdits = []) (hm : m ∈ refs) :
    Step.Ends (defineThunk m) v (fun f v' => Generated u refs v' ∧
      ∃ entry, v'.thunks.get? m = some entry ∧ entry.body = some f)
      fun _ v' => Generated u refs v' ∧
        ∀ s, u.layout.lower u.pool m = .ok s → ¬ u.Emittable m s := by
  rw [defineThunk_eq, Step.ends_bind]
  refine (ends_declareThunk hv hrefs hm).imp (fun entry v₁ h₁ => ?_) fun _ v₁ h₁ => ?_
  · obtain ⟨hv₁, hget, -, -⟩ := h₁
    have hthunk := hv₁.thunks m entry hget
    cases hbody : entry.body with
    | some body => exact ⟨hv₁, entry, hget, hbody⟩
    | none =>
      simp only [Step.ends_bind, Step.ends_observe]
      refine (ends_emitThunk hv₁ hrefs hu hthunk).imp (fun f v₂ h₂ => ?_) fun fault v₂ h₂ => ?_
      · obtain ⟨hv₂, hthunks, hforwards⟩ := h₂
        have hget₂ : v₂.thunks.get? m = some entry := by rw [hthunks, hget]
        have hdefined : u.IsThunk refs m { entry with body := some f } :=
          ⟨hthunk.mem, hthunk.symbol, hthunk.declaration, fun f' hf' => by
            cases hf'
            exact hforwards⟩
        rw [Step.ends_get, Registry.define, hget₂]
        simp only [hbody, Step.ends_set, Step.ends_liftM_ok]
        exact ⟨hv₂.insert hdefined (Registry.view_start_fill hget₂ f),
          { entry with body := some f }, Registry.get?_start_fill hget₂ f, rfl⟩
      · obtain ⟨hv₂, hthunks, hno⟩ := h₂
        have hget₂ : v₂.thunks.get? m = some entry := by rw [hthunks, hget]
        rw [Step.ends_get, Registry.define, hget₂]
        simp only [hbody, Step.ends_set, Step.ends_liftM_error]
        refine ⟨⟨hv₂.hierarchy, hv₂.layout, hv₂.options, hv₂.pool, hv₂.distinct, hv₂.thunkKeys,
          hv₂.lookupKeys, hv₂.thunks, hv₂.lookups, hv₂.globals⟩, fun s hs => ?_⟩
        rw [hthunk.declaration] at hs
        cases hs
        exact hno
  · obtain ⟨rfl, hno⟩ := h₁
    exact ⟨hv, fun s hs => absurd hs (hno s)⟩

end Module

end Dispatch
