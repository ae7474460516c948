import Dispatch.Proofs.Emission
import Dispatch.Proofs.Output

/-!
# The order of requests

What a module holds, and what a request answers, follows from the declarations and from
what has been asked for: in which order, how often, and what else was asked for in between
makes no difference.  The pool of types grows in another order in each run; the code of a
thunk depends only on types that were there at first.

## Main definitions

* `Module.thunkBody`, `Module.lookupBody` — the code for a method and for a class.
* `Module.Holds` — what has been generated is what was asked for.
* `Module.Demand` — requests for code; `Module.serve` answers them.
* `Module.Offers` — methods that can be asked for.

## Main results

* `Module.Holds.ends_defineThunk`, `Module.Holds.ends_defineLookup` — one function more.
* `Module.Holds.ends_serve` — any number of requests.
* `Module.Holds.mem_functions_iff` — the functions of a module are the answers it gave.
* `Module.serve_order` — the order of requests makes no difference.
-/

namespace Dispatch

open Attempt

/-! ### Code and types -/

theorem Target.resolve_congr {p q : Pool} {m : Method}
    (h : receiverIsMetadata p m = receiverIsMetadata q m) (args : Arguments) (t : Target) :
    t.resolve p m args = t.resolve q m args := by
  cases t with
  | witness index => rfl
  | virtual slot signing => simp only [resolve, h]

/-- The code of a thunk depends on the types only where it is asked whether the receiver
is metadata. -/
theorem Thunk.function_congr {p q : Pool} {plan : ThunkPlan}
    (h : Target.receiverIsMetadata p plan.method = Target.receiverIsMetadata q plan.method)
    (target : Attempt Target) (symbol : String) :
    function p target plan symbol = function q target plan symbol := by
  simp only [function, emit, forward, Target.resolve_congr h]

namespace Module

variable {u v v' v'' : Module} {refs ms ms' : List Method} {cs cs' : List String} {m : Method}
  {className symbol : String} {s : Lowered} {f : Function} {entry : Entry Lowered}

/-! ### What is generated -/

/-- The code of a method's thunk. -/
def thunkBody (u : Module) (m : Method) : Attempt Function := do
  let declared ← u.thunkDeclaration m
  let target := Target.ofMethod u.hierarchy u.pool u.options.signingKey m
  Thunk.function u.pool target { method := m, own := declared.2, forwarded := declared.2 }
    declared.1

/-- The entry of a method whose thunk there is. -/
def thunkEntry (u : Module) (m : Method) : Attempt (Entry Lowered) := do
  let declared ← u.thunkDeclaration m
  let body ← u.thunkBody m
  return { symbol := declared.1, declaration := declared.2, body := some body }

/-- The code of a class's look-up function. -/
def lookupBody (u : Module) (className : String) : Attempt Function := do
  let plan ← u.lookupPlan className
  plan.function (u.lookupSymbol className)

/-- The entry of a class whose look-up function there is. -/
def lookupEntry (u : Module) (className : String) : Attempt (Entry Unit) := do
  let body ← u.lookupBody className
  return { symbol := u.lookupSymbol className, declaration := (), body := some body }

/-- The global that comes with the thunk of an asynchronous method. -/
def PointerOf (u : Module) (m : Method) (symbol : String) (g : Global) : Prop :=
  ∃ function s frame, u.thunkDeclaration m = .ok (function, s) ∧ s.frame = some frame ∧
    symbol = asyncPointerSymbol function ∧ g = .asyncPointer function frame.size

/-- The descriptor of a method. -/
def DescriptorOf (u : Module) (m : Method) (symbol : String) (g : Global) : Prop :=
  m.descriptorSymbol u.pool = .ok symbol ∧ g = .methodDescriptor m

/-- The globals that come with the look-up function of a class. -/
def ComparedIn (u : Module) (className symbol : String) (g : Global) : Prop :=
  ∃ methods, u.hierarchy.classMethods className = .ok methods ∧
    ∃ c ∈ methods.filter (fun c => c.visibility == .isPublic && !c.overridden),
      u.DescriptorOf c.method symbol g

/-! ### Globals that are added -/

/-- Only globals have been added, namely those in `new`. -/
structure Gains (new : String → Global → Prop) (v v' : Module) : Prop where
  rest : v' = { v with globals := v'.globals }
  keys : v.globals.keys.Nodup → v'.globals.keys.Nodup
  get? : ∀ symbol g, v'.globals.get? symbol = some g ↔
    v.globals.get? symbol = some g ∨ new symbol g

section Gains

variable {new new' : String → Global → Prop}

theorem Gains.congr (h : Gains new v v') (heq : ∀ symbol g, new symbol g ↔ new' symbol g) :
    Gains new' v v' :=
  ⟨h.rest, h.keys, fun symbol g => by rw [h.get?, heq]⟩

theorem gains_refl (v : Module) : Gains (fun _ _ => False) v v :=
  ⟨rfl, fun h => h, fun _ _ => (or_false _).symm.to_iff⟩

theorem Gains.trans (h : Gains new v v') (h' : Gains new' v' v'') :
    Gains (fun symbol g => new symbol g ∨ new' symbol g) v v'' where
  rest := by rw [h'.rest, h.rest]
  keys hkeys := h'.keys (h.keys hkeys)
  get? symbol g := by rw [h'.get?, h.get?, or_assoc]

/-- A global is added under a symbol that stands for nothing else. -/
theorem gains_insertNew {g : Global} (h : ∀ g', v.globals.get? symbol = some g' → g' = g) :
    Gains (fun symbol' g' => symbol' = symbol ∧ g' = g) v
      { v with globals := v.globals.insertNew symbol g } :=
  ⟨rfl, Table.nodup_keys_insertNew, fun _ _ => Table.get?_insertNew_iff h⟩

end Gains

/-! ### Thunks -/

theorem gains_definePointer (hv : Generated u refs v) (hrefs : u.References refs)
    (h : u.IsThunk refs m entry) :
    Step.Ends (definePointer entry.symbol entry.declaration.frame) v
      (fun _ v' => Gains (u.PointerOf m) v v') fun _ _ => False := by
  have hdeclared := thunkDeclaration_eq_ok.mpr ⟨h.symbol, h.declaration⟩
  cases hf : entry.declaration.frame with
  | none =>
    refine (gains_refl v).congr fun symbol g => ?_
    rw [false_iff]
    rintro ⟨function, s, frame, hs, hframe, -⟩
    rw [hdeclared] at hs
    cases hs
    rw [hf] at hframe
    cases hframe
  | some frame =>
    refine (gains_insertNew fun g' hg' => hv.pointer hrefs h hf hg').congr fun symbol g => ?_
    constructor
    · rintro ⟨rfl, rfl⟩
      exact ⟨_, _, frame, hdeclared, hf, rfl, rfl⟩
    · rintro ⟨function, s, frame', hs, hframe, hsymbol, hg⟩
      rw [hdeclared] at hs
      cases hs
      rw [hf] at hframe
      cases hframe
      exact ⟨hsymbol, hg⟩

/-- Declaring a thunk adds an entry if there is none, and the async function pointer. -/
theorem gains_declareThunk (hv : Generated u refs v) (hrefs : u.References refs) (hm : m ∈ refs)
    (hdeclared : u.thunkDeclaration m = .ok (symbol, s)) :
    Step.Ends (declareThunk m) v (fun entry v' =>
      (v.thunks.get? m = some entry ∧ Gains (u.PointerOf m) v v') ∨
      (v.thunks.get? m = none ∧ entry = { symbol, declaration := s } ∧
        Gains (u.PointerOf m)
          { v with thunks := v.thunks.add m entry } v'))
      fun _ _ => False := by
  rw [declareThunk, Step.ends_bind, Step.ends_get]
  cases hget : v.thunks.get? m with
  | some entry =>
    rw [Registry.declare, hget, Step.ends_bind, Step.ends_liftM_ok, Step.ends_bind, Step.ends_set,
      Step.ends_bind]
    refine (gains_definePointer (v := v) hv hrefs (hv.thunks m entry hget)).imp
      (fun _ v' h => ?_) fun _ _ h => h
    exact Or.inl ⟨rfl, h⟩
  | none =>
    obtain ⟨hsymbol, hs⟩ := thunkDeclaration_eq_ok.mp hdeclared
    have hentry : u.IsThunk refs m { symbol, declaration := s } :=
      ⟨hm, hsymbol, hs, fun f hf => by cases hf⟩
    rw [Registry.declare, hget, hv.thunkDeclaration_eq hrefs hm, hdeclared]
    simp only [ok_bind, pure_eq, Step.ends_bind, Step.ends_liftM_ok, Step.ends_set]
    refine (gains_definePointer (hv.insert hentry (Registry.view_add hget _)) hrefs hentry).imp
      (fun _ v' h => ?_) fun _ _ h => h
    exact Or.inr ⟨trivial, rfl, h⟩

theorem exists_thunkDeclaration (hu : u.Coherent refs) (hm : m ∈ refs) (hask : u.Askable m) :
    ∃ symbol s, u.thunkDeclaration m = .ok (symbol, s) := by
  obtain ⟨symbol, hsymbol⟩ := hu.references.symbols m hm
  obtain ⟨s, hs⟩ := Layout.exists_lower hu.frames (hu.references.known hm) hask.sizes
  exact ⟨symbol, s, thunkDeclaration_eq_ok.mpr ⟨hsymbol, hs⟩⟩

/-- There is code for the thunk of a method that can be asked for, and it is the same
however many types there are by then. -/
theorem exists_thunkBody (hframes : u.layout.frameEdits = []) (hask : u.Askable m)
    (hdeclared : u.thunkDeclaration m = .ok (symbol, s)) :
    ∃ f, u.thunkBody m = .ok f ∧ ∀ p, u.pool.Extends p →
      Thunk.function p (Target.ofMethod u.hierarchy p u.options.signingKey m)
        { method := m, own := s, forwarded := s } symbol = .ok f := by
  obtain ⟨target, htarget⟩ := hask.answers.place
  obtain ⟨b, hb⟩ := Target.receiverIsMetadata_of_closed hask.closed
  have hs := (thunkDeclaration_eq_ok.mp hdeclared).2
  obtain ⟨f, -, hf, -⟩ := exists_function hs hframes hask.closed ⟨target, htarget⟩
    (hask.sizes.of_carrier hs) (.refl _) symbol
  refine ⟨f, ?_, fun p hp => ?_⟩
  · rw [thunkBody, hdeclared]
    exact hf
  · -- neither the place nor the kind of the receiver changes
    have hreceiver := (Target.receiverIsMetadata_extends hp hb).trans hb.symm
    rw [Target.ofMethod_extends hp htarget, Thunk.function_congr hreceiver, ← htarget, hf]

theorem exists_thunkEntry (hu : u.Coherent refs) (hm : m ∈ refs) (hask : u.Askable m) :
    ∃ entry, u.thunkEntry m = .ok entry := by
  obtain ⟨symbol, s, hdeclared⟩ := exists_thunkDeclaration hu hm hask
  obtain ⟨f, hf, -⟩ := exists_thunkBody hu.frames hask hdeclared
  refine ⟨⟨symbol, s, some f⟩, ?_⟩
  rw [thunkEntry, hdeclared, ok_bind, hf]
  rfl

theorem ends_emitThunk_eq (hv : Generated u refs v) (hframes : u.layout.frameEdits = [])
    (hask : u.Askable m)
    (hdeclared : u.thunkDeclaration m = .ok (entry.symbol, entry.declaration))
    (hpointer : v.HasPointer entry) :
    Step.Ends (emitThunk m entry) v (fun f v' => u.thunkBody m = .ok f ∧ v.Grows v')
      fun _ _ => False := by
  obtain ⟨f, hbody, hcode⟩ := exists_thunkBody hframes hask hdeclared
  rw [emitThunk, Step.ends_bind]
  refine (ends_planThunk hv.distinct m entry.declaration).imp (fun plan v₁ h₁ => ?_)
    fun _ _ h => h.2 (hask.closed.extends hv.pool)
  obtain ⟨rfl, hgrows⟩ := h₁
  have hv₁ := hv.grows hgrows
  have hpointer₁ : v₁.HasPointer entry := fun frame hframe => by
    rw [hgrows.rest]
    exact hpointer frame hframe
  -- the pointer is there from the declaration on
  have hagain : { v₁ with globals := v₁.withPointer entry } = v₁ := by
    rw [hpointer₁.withPointer]
  rw [emitPlanned_eq (Layout.isSome_frame_of_lower (thunkDeclaration_eq_ok.mp hdeclared).2),
    Step.ends_bind]
  refine Step.ends_of_ok (run_definePointer _ entry) ?_
  rw [hagain, Step.ends_bind, Step.ends_get, hv₁.hierarchy, hv₁.options]
  refine Step.ends_liftM.mpr ⟨fun f' hf' => ?_, fun fault hfault => ?_⟩
  · obtain rfl : f = f' := Except.ok.inj ((hcode _ hv₁.pool).symm.trans hf')
    exact ⟨hbody, hgrows⟩
  · cases (hcode _ hv₁.pool).symm.trans hfault

/-! ### Look-up functions -/

theorem gains_declareDescriptor (hv : Generated u refs v) (hrefs : u.References refs)
    (hm : m ∈ refs) (hintro : u.hierarchy.introduces m = .ok true) :
    Step.Ends (declareDescriptor m) v (fun _ v' => Gains (u.DescriptorOf m) v v')
      fun _ _ => True := by
  obtain ⟨symbol, hsymbol⟩ := hrefs.descriptor hm
  have hpool : m.descriptorSymbol v.pool = .ok symbol := by
    rw [Method.descriptorSymbol, (hrefs.known hm).entitySymbol_eq hv.pool]
    exact hsymbol
  have hintro' : v.hierarchy.introduces m = .ok true := by rw [hv.hierarchy, hintro]
  have hrun : declareDescriptor m v
      = .ok symbol { v with globals := v.globals.insertNew symbol (.methodDescriptor m) } := by
    rw [declareDescriptor, Step.bind_of_ok Step.run_get,
      Hierarchy.isWitness_of_introducing (introducing_of_introduces hintro), hintro', hpool]
    rfl
  refine Step.ends_of_ok hrun
    ((gains_insertNew fun g' hg' => hv.descriptor hrefs hm hsymbol hg').congr fun symbol' g => ?_)
  rw [DescriptorOf, hsymbol, Except.ok.injEq, eq_comm]

theorem gains_candidate (hv : Generated u refs v) (hrefs : u.References refs) {c : ClassMethod}
    (hm : c.method ∈ refs) (hintro : u.hierarchy.introduces c.method = .ok true) :
    Step.Ends (candidate c) v (fun _ v' => Gains (u.DescriptorOf c.method) v v')
      fun _ _ => True := by
  rw [candidate, Step.ends_bind]
  refine (gains_declareDescriptor hv hrefs hm hintro).imp (fun symbol v₁ h₁ => ?_)
    fun _ _ h => h
  rw [Step.ends_bind, Step.ends_get]
  cases v₁.options.signingKey with
  | none => exact h₁
  | some key =>
    rw [Option.mapM_some, Step.ends_bind, Step.ends_map]
    exact Step.ends_liftM.mpr ⟨fun _ _ => h₁, fun _ _ => trivial⟩

theorem gains_candidates (hrefs : u.References refs) (known : List ClassMethod) :
    ∀ {v : Module}, Generated u refs v →
      (∀ c ∈ known, c.method ∈ refs ∧ u.hierarchy.introduces c.method = .ok true) →
      Step.Ends (known.mapM candidate) v
        (fun _ v' => Gains (fun symbol g => ∃ c ∈ known, u.DescriptorOf c.method symbol g) v v')
        fun _ _ => True := by
  induction known with
  | nil =>
    refine fun {v} _ _ => (gains_refl v).congr fun symbol g => ?_
    simp
  | cons c rest ih =>
    intro v hv hknown
    obtain ⟨hm, hintro⟩ := hknown c List.mem_cons_self
    rw [List.mapM_cons, Step.ends_bind]
    refine ((ends_candidate hv hrefs hm hintro).and (gains_candidate hv hrefs hm hintro)).imp
      (fun _ v₁ h₁ => ?_) fun _ _ _ => trivial
    rw [Step.ends_bind]
    refine (ih h₁.1.1 fun c' hc' => hknown c' (List.mem_cons_of_mem _ hc')).imp
      (fun _ v₂ h₂ => ?_) fun _ _ h => h
    refine (h₁.2.trans h₂).congr fun symbol g => ?_
    rw [List.exists_mem_cons_iff]

/-- Planning a look-up function adds the descriptors that the function compares with. -/
theorem gains_planLookup (hv : Generated u refs v) (hrefs : u.References refs)
    (hwf : u.hierarchy.WellFormed) {decl : ClassDecl}
    (hdecl : u.hierarchy.classNamed className = .ok decl) :
    Step.Ends (planLookup className) v
      (fun plan v' => u.lookupPlan className = .ok plan ∧ Gains (u.ComparedIn className) v v')
      fun _ _ => False := by
  have hgains : Step.Ends (planLookup className) v
      (fun _ v' => Gains (u.ComparedIn className) v v') fun _ _ => True := by
    obtain ⟨methods, hmethods, hmem⟩ := mem_classMethods hwf hdecl
    have hdecls := hrefs.methods decl (Hierarchy.mem_of_classNamed hdecl).1
    rw [planLookup, Step.ends_bind, Step.ends_get, hv.hierarchy, orTrap_eq_ok.mpr hmethods,
      Step.ends_bind, Step.ends_liftM_ok, Step.ends_bind]
    refine (gains_candidates hrefs _ hv fun c hc => ?_).imp (fun _ v₁ h₁ => ?_) fun _ _ h => h
    · obtain ⟨d, hd, hnone, hm, -⟩ := (hmem c).mp (List.mem_filter.mp hc).1
      rw [hm]
      exact ⟨hdecls d hd, introduces_of_mem hwf hdecl hd hnone⟩
    · -- nothing after the candidates adds a global
      have hcompared : Gains (u.ComparedIn className) v v₁ := h₁.congr fun symbol g =>
        ⟨fun h => ⟨methods, hmethods, h⟩, fun h => by
          obtain ⟨methods', hmethods', h⟩ := h
          rwa [← Except.ok.inj (hmethods.symm.trans hmethods')] at h⟩
      rw [Step.ends_bind]
      exact Step.ends_liftM.mpr ⟨fun _ _ => hcompared, fun _ _ => trivial⟩
  refine ((ends_planLookup hv hrefs hwf).and hgains).imp (fun plan v' h => ?_) fun _ _ h => ?_
  · exact ⟨h.1.2.2.2, h.2⟩
  · exact h.1.2 decl hdecl

theorem gains_declareLookup (hv : Generated u refs v) :
    Step.Ends (declareLookup className) v (fun entry v' =>
      (v.lookups.get? className = some entry ∧ v' = v) ∨
      (v.lookups.get? className = none ∧
        entry = { symbol := u.lookupSymbol className, declaration := () } ∧
        v' = { v with lookups := v.lookups.add className entry }))
      fun _ _ => False := by
  have hsymbol : classSymbol v.hierarchy.module className .lookupFunction
      = u.lookupSymbol className := by rw [hv.hierarchy, lookupSymbol]
  rw [declareLookup, Step.ends_bind, Step.ends_get, hsymbol]
  simp only [Registry.declare]
  cases hget : v.lookups.get? className with
  | some entry => exact Or.inl ⟨rfl, rfl⟩
  | none => exact Or.inr ⟨rfl, rfl, rfl⟩

/-! ### One function more -/

theorem body_of_thunkEntry (h : u.thunkEntry m = .ok entry) :
    ∃ f, u.thunkBody m = .ok f ∧ entry.body = some f := by
  obtain ⟨declared, -, h⟩ := bind_eq_ok.mp h
  obtain ⟨f, hf, h⟩ := bind_eq_ok.mp h
  cases h
  exact ⟨f, hf, rfl⟩

theorem body_of_lookupEntry {entry : Entry Unit} (h : u.lookupEntry className = .ok entry) :
    ∃ f, u.lookupBody className = .ok f ∧ entry.body = some f := by
  obtain ⟨f, hf, h⟩ := bind_eq_ok.mp h
  cases h
  exact ⟨f, hf, rfl⟩

/-- What has been generated for `u` is what was asked for: the thunks of `ms` and the
look-up functions of `cs`. -/
structure Holds (u : Module) (refs ms : List Method) (cs : List String) (v : Module) : Prop where
  generated : Generated u refs v
  thunks : v.thunks.Fills u.thunkEntry ms
  lookups : v.lookups.Fills u.lookupEntry cs
  keys : v.globals.keys.Nodup
  globals : ∀ symbol g, v.globals.get? symbol = some g ↔
    (∃ m ∈ ms, u.PointerOf m symbol g) ∨ ∃ className ∈ cs, u.ComparedIn className symbol g

namespace Holds

/-- The thunk of a method that can be asked for is generated, or is there already. -/
theorem fills_defineThunk (h : u.Holds refs ms cs v) (hu : u.Coherent refs) (hm : m ∈ refs)
    (hask : u.Askable m) :
    Step.Ends (defineThunk m) v (fun f v' => u.thunkBody m = .ok f ∧
      ∃ pool thunks, thunks.Fills u.thunkEntry (ms ++ [m]) ∧
        Gains (u.PointerOf m) { v with pool, thunks } v') fun _ _ => False := by
  obtain ⟨symbol, s, hdeclared⟩ := exists_thunkDeclaration hu hm hask
  rw [defineThunk_eq, Step.ends_bind]
  refine ((ends_declareThunk h.generated hu.references hm).and
    (gains_declareThunk h.generated hu.references hm hdeclared)).imp (fun entry v₁ h₁ => ?_)
    fun _ _ h₁ => h₁.2
  obtain ⟨⟨hv₁, hget₁, -, hpointer⟩, ⟨hget, hgains⟩ | ⟨hnone, rfl, hgains⟩⟩ := h₁
  · -- the thunk has been asked for before
    obtain ⟨f, hbody, hf⟩ := body_of_thunkEntry ((h.thunks.get? m entry).mp hget).2
    simp only [hf]
    exact ⟨hbody, v.pool, v.thunks, h.thunks.again hget, hgains⟩
  · -- the thunk is new: it was declared just now, and planning it may have added types
    simp only [Step.ends_bind, Step.ends_observe]
    refine (ends_emitThunk_eq hv₁ hu.frames hask hdeclared hpointer).imp (fun f v₂ h₂ => ?_)
      fun _ _ h₂ => h₂.elim
    obtain ⟨hbody, hgrows⟩ := h₂
    have hthunks : v₂.thunks = v.thunks.add m { symbol, declaration := s } := by
      rw [hgrows.rest, hgains.rest]
    have hget₂ : v₂.thunks.get? m = some { symbol, declaration := s } := by
      rw [hgrows.rest, ← hget₁]
    have hspec : u.thunkEntry m = .ok { symbol, declaration := s, body := some f } := by
      rw [thunkEntry, hdeclared, ok_bind, hbody]
      rfl
    rw [Step.ends_get, Registry.define, hget₂]
    simp only [Step.ends_set, Step.ends_liftM_ok]
    have hview : (v₂.thunks.start.fill m f).view = (v.thunks.view.insert m ⟨symbol, s, none⟩).insert
        m ⟨symbol, s, some f⟩ := by
      rw [Registry.view_start_fill hget₂, hthunks,
        Registry.view_add hnone]
    refine ⟨hbody, v₂.pool, _, h.thunks.define hnone _ hspec hview ?_, ?_, ?_, ?_⟩
    · rw [Registry.emitted_fill, Registry.emitted_start, hthunks, Registry.emitted_add]
    · rw [hgrows.rest, hgains.rest]
    · rw [hgrows.rest]
      exact hgains.keys
    · rw [hgrows.rest]
      exact hgains.get?

/-- The look-up function of a class is generated, or is there already. -/
theorem fills_defineLookup (h : u.Holds refs ms cs v) (hu : u.Coherent refs) {decl : ClassDecl}
    (hdecl : u.hierarchy.classNamed className = .ok decl) :
    Step.Ends (defineLookup className) v (fun f v' => u.lookupBody className = .ok f ∧
      ∃ lookups, lookups.Fills u.lookupEntry (cs ++ [className]) ∧
        Gains (u.ComparedIn className) { v with lookups } v') fun _ _ => False := by
  rw [defineLookup_eq, Step.ends_bind]
  refine ((ends_declareLookup h.generated).and (gains_declareLookup h.generated)).imp
    (fun entry v₁ h₁ => ?_) fun _ _ h₁ => h₁.2
  obtain ⟨⟨hv₁, hget₁⟩, ⟨hget, rfl⟩ | ⟨hnone, rfl, rfl⟩⟩ := h₁
  · -- the function has been asked for before
    obtain ⟨hmem, hspec⟩ := (h.lookups.get? className entry).mp hget
    obtain ⟨f, hbody, hf⟩ := body_of_lookupEntry hspec
    simp only [hf]
    refine ⟨hbody, v₁.lookups, h.lookups.again hget, rfl, fun hkeys => hkeys, fun symbol g => ?_⟩
    refine (or_iff_left_of_imp fun hcompared => ?_).symm
    exact (h.globals symbol g).mpr (Or.inr ⟨className, hmem, hcompared⟩)
  · -- the function is new
    simp only [Step.ends_bind, Step.ends_observe, emitLookup]
    refine (gains_planLookup hv₁ hu.references hu.hierarchy hdecl).imp (fun plan v₂ h₂ => ?_)
      fun _ _ h₂ => h₂.elim
    obtain ⟨hplan, hgains⟩ := h₂
    have hlookups : v₂.lookups = v.lookups.add className
        { symbol := u.lookupSymbol className, declaration := () } := by
      rw [hgains.rest]
    have hget₂ : v₂.lookups.get? className
        = some { symbol := u.lookupSymbol className, declaration := () } := by
      rw [hlookups]
      exact hget₁
    have hbody : u.lookupBody className = .ok (plan.code (u.lookupSymbol className)) := by
      rw [lookupBody, hplan, ok_bind, plan.function_eq]
    have hspec : u.lookupEntry className = .ok
        ⟨u.lookupSymbol className, (), some (plan.code (u.lookupSymbol className))⟩ := by
      rw [lookupEntry, hbody]
      rfl
    rw [plan.function_eq, Step.ends_liftM_ok, Step.ends_get, Registry.define, hget₂]
    simp only [Step.ends_set, Step.ends_liftM_ok]
    refine ⟨hbody, v₂.lookups.start.fill className (plan.code (u.lookupSymbol className)),
      h.lookups.define hnone ⟨u.lookupSymbol className, (), none⟩ hspec ?_ ?_, ?_, hgains.keys,
      hgains.get?⟩
    · rw [Registry.view_start_fill hget₂, hlookups, Registry.view_add hnone]
    · rw [Registry.emitted_fill, Registry.emitted_start, hlookups, Registry.emitted_add]
    · rw [hlookups, hgains.rest]

/-- One thunk more. -/
theorem ends_defineThunk (h : u.Holds refs ms cs v) (hu : u.Coherent refs) (hm : m ∈ refs)
    (hask : u.Askable m) :
    Step.Ends (defineThunk m) v (fun f v' => u.thunkBody m = .ok f ∧
      u.Holds refs (ms ++ [m]) cs v') fun _ _ => False := by
  refine ((Module.ends_defineThunk h.generated hu.references hu.frames hm).and
    (h.fills_defineThunk hu hm hask)).imp (fun f v' h' => ?_) fun _ _ h' => h'.2
  obtain ⟨⟨hv', -⟩, hbody, pool, thunks, hfills, hgains⟩ := h'
  have hthunks : v'.thunks = thunks := by rw [hgains.rest]
  have hlookups : v'.lookups = v.lookups := by rw [hgains.rest]
  refine ⟨hbody, hv', hthunks ▸ hfills, hlookups ▸ h.lookups, hgains.keys h.keys,
    fun symbol g => ?_⟩
  rw [hgains.get?, h.globals, or_right_comm]
  simp only [List.mem_append, List.mem_singleton, or_and_right, exists_or, exists_eq_left]

/-- One look-up function more. -/
theorem ends_defineLookup (h : u.Holds refs ms cs v) (hu : u.Coherent refs) {decl : ClassDecl}
    (hdecl : u.hierarchy.classNamed className = .ok decl) :
    Step.Ends (defineLookup className) v (fun f v' => u.lookupBody className = .ok f ∧
      u.Holds refs ms (cs ++ [className]) v') fun _ _ => False := by
  refine ((Module.ends_defineLookup h.generated hu.references hu.hierarchy).and
    (h.fills_defineLookup hu hdecl)).imp (fun f v' h' => ?_) fun _ _ h' => h'.2
  obtain ⟨⟨hv', -⟩, hbody, lookups, hfills, hgains⟩ := h'
  have hlookups : v'.lookups = lookups := by rw [hgains.rest]
  have hthunks : v'.thunks = v.thunks := by rw [hgains.rest]
  refine ⟨hbody, hv', hthunks ▸ h.thunks, hlookups ▸ hfills, hgains.keys h.keys,
    fun symbol g => ?_⟩
  rw [hgains.get?, h.globals, or_assoc]
  simp only [List.mem_append, List.mem_singleton, or_and_right, exists_or, exists_eq_left]

end Holds

/-- At first a module holds what was asked for: nothing. -/
theorem Coherent.holds (hu : u.Coherent refs) (hthunks : u.thunks.emitted = 0)
    (hlookups : u.lookups.emitted = 0) : u.Holds refs [] [] u where
  generated := hu.generated
  thunks := Registry.fills_nil hu.thunks hthunks
  lookups := Registry.fills_nil hu.lookups hlookups
  keys := by
    rw [Table.keys, hu.globals]
    exact List.nodup_nil
  globals symbol g := by
    simp [Table.get?_of_entries_nil hu.globals]

/-! ### Requests -/

/-- A method that the module declares, whose generic parameters are its own and whose sizes
fit. -/
structure Offers (u : Module) (m : Method) : Prop where
  declared : (∃ c ∈ u.hierarchy.classes, ∃ d ∈ c.methods, d.method = m) ∨
    ∃ p ∈ u.hierarchy.protocols, m ∈ p.requirements
  closed : m.Closed u.pool
  sizes : u.layout.SizesFit u.pool m

theorem Offers.mem (h : u.Offers m) (hrefs : u.References refs) : m ∈ refs := by
  rcases h.declared with ⟨c, hc, d, hd, rfl⟩ | ⟨p, hp, hm⟩
  · exact hrefs.methods c hc d hd
  · exact hrefs.requirements p hp m hm

/-- A class method that is declared has a slot, and its entries can be signed. -/
theorem answers_of_mem (hu : u.Coherent refs) {c : ClassDecl} (hc : c ∈ u.hierarchy.classes)
    {d : MethodDecl} (hd : d ∈ c.methods) (key : Option Key) :
    u.hierarchy.Answers u.pool key d.method := by
  obtain ⟨base, ancestor, n, hbase, -⟩ := hu.hierarchy.introducing hc hd
  have hw := Hierarchy.isWitness_of_introducing hbase
  obtain ⟨owner, t, k, resilient, -, -, -, -, hslot⟩ := hu.hierarchy.slot hbase
  obtain ⟨symbol, hsymbol⟩ := hu.references.descriptor (hu.references.of_introducing hbase)
  refine ⟨fun h => ?_, fun _ => ⟨_, hslot⟩, fun _ _ => ⟨discriminator symbol, ?_⟩⟩
  · rw [hw] at h
    cases h
  · rw [Hierarchy.methodDiscriminator, hw, hbase]
    simp only [Bool.false_eq_true, if_false, ok_bind, hsymbol]
    rfl

/-- A requirement that is declared has a witness. -/
theorem answers_of_requirement (hwf : u.hierarchy.WellFormed) {p : ProtocolDecl}
    (hp : p ∈ u.hierarchy.protocols) (hm : m ∈ p.requirements) (key : Option Key) :
    u.hierarchy.Answers u.pool key m := by
  have howner := hwf.requirements p hp m hm
  have hw : m.isWitness = true := by rw [Method.isWitness, howner]; rfl
  have hprotocol : u.hierarchy.protocolNamed p.name = .ok p := by
    rw [Hierarchy.protocolNamed, Hierarchy.find?_reverse_eq_some hwf.protocolNames hp]
  refine ⟨fun _ => ?_, fun h => ?_, fun h => ?_⟩
  · rw [Hierarchy.witnessIndex, howner]
    simp only [hprotocol, ok_bind]
    cases hfind : p.requirements.findIdx? (· == m) with
    | some position => exact ⟨_, rfl⟩
    | none => exact absurd (List.findIdx?_eq_none_iff.mp hfind m hm) (by simp)
  · rw [hw] at h
    cases h
  · rw [hw] at h
    cases h

theorem Offers.askable (h : u.Offers m) (hu : u.Coherent refs) : u.Askable m := by
  refine ⟨h.closed, ?_, h.sizes⟩
  rcases h.declared with ⟨c, hc, d, hd, rfl⟩ | ⟨p, hp, hm⟩
  · exact answers_of_mem hu hc hd _
  · exact answers_of_requirement hu.hierarchy hp hm _

/-- A request for the code of thunks or of a look-up function. -/
inductive Demand where
  | thunk (m : Method)
  | thunks (methods : List Method)
  | lookup (className : String)

namespace Demand

/-- Ask for the code. -/
def ask : Demand → Generate (List Function)
  | thunk m => do return [← defineThunk m]
  | thunks methods => emitThunks methods
  | lookup className => do return [← defineLookup className]

/-- The methods whose thunks are asked for. -/
def methods : Demand → List Method
  | thunk m => [m]
  | thunks methods => methods
  | lookup _ => []

/-- The classes whose look-up functions are asked for. -/
def classes : Demand → List String
  | thunk _ => []
  | thunks _ => []
  | lookup className => [className]

/-- The answer to a request, if `thunk` and `lookup` are the functions for each method and
each class. -/
def answer (thunk : Method → Function) (lookup : String → Function) (r : Demand) :
    List Function := r.methods.map thunk ++ r.classes.map lookup

end Demand

/-- Ask for one thing after the other. -/
def serve (requests : List Demand) : Generate (List (List Function)) :=
  requests.mapM Demand.ask

/-- Everything that is asked for is a method or a class of the module. -/
structure Serves (u : Module) (requests : List Demand) : Prop where
  methods : ∀ m ∈ requests.flatMap Demand.methods, u.Offers m
  classes : ∀ className ∈ requests.flatMap Demand.classes,
    ∃ decl, u.hierarchy.classNamed className = .ok decl

/-- The function that an attempt made. -/
def made (attempt : Attempt Function) : Function := attempt.toOption.getD default

theorem made_eq {attempt : Attempt Function} (h : attempt = .ok f) : made attempt = f := by
  rw [h]
  rfl

/-- The answer to a request, as it follows from the declarations. -/
def answerOf (u : Module) : Demand → List Function :=
  Demand.answer (fun m => made (u.thunkBody m)) fun className => made (u.lookupBody className)

namespace Holds

theorem ends_emitThunks (hu : u.Coherent refs) (methods : List Method) :
    ∀ {ms : List Method} {v : Module}, u.Holds refs ms cs v → (∀ m ∈ methods, u.Offers m) →
      Step.Ends (emitThunks methods) v
        (fun fs v' => fs = methods.map (fun m => made (u.thunkBody m)) ∧
          u.Holds refs (ms ++ methods) cs v') fun _ _ => False := by
  induction methods with
  | nil =>
    intro ms v h _
    refine ⟨rfl, ?_⟩
    rwa [List.append_nil]
  | cons m rest ih =>
    intro ms v h hoffers
    have hm := hoffers m List.mem_cons_self
    rw [emitThunks, List.mapM_cons, Step.ends_bind]
    refine (h.ends_defineThunk hu (hm.mem hu.references) (hm.askable hu)).imp (fun f v₁ h₁ => ?_)
      fun _ _ h₁ => h₁
    rw [Step.ends_bind]
    refine (ih h₁.2 fun m' hm' => hoffers m' (List.mem_cons_of_mem _ hm')).imp
      (fun fs v₂ h₂ => ?_) fun _ _ h₂ => h₂
    obtain ⟨rfl, hholds⟩ := h₂
    rw [List.append_assoc, List.singleton_append] at hholds
    refine ⟨?_, hholds⟩
    rw [List.map_cons, made_eq h₁.1]

/-- One request: it is answered, and the module holds what it asked for as well. -/
theorem ends_ask (hu : u.Coherent refs) (h : u.Holds refs ms cs v) (r : Demand)
    (hmethods : ∀ m ∈ r.methods, u.Offers m)
    (hclasses : ∀ c ∈ r.classes, ∃ decl, u.hierarchy.classNamed c = .ok decl) :
    Step.Ends r.ask v (fun fs v' => fs = u.answerOf r ∧
      u.Holds refs (ms ++ r.methods) (cs ++ r.classes) v') fun _ _ => False := by
  cases r with
  | thunk m =>
    have hm := hmethods m List.mem_cons_self
    rw [Demand.ask, Step.ends_bind]
    refine (h.ends_defineThunk hu (hm.mem hu.references) (hm.askable hu)).imp (fun f v₁ h₁ => ?_)
      fun _ _ h₁ => h₁
    simp only [Demand.classes, List.append_nil]
    exact ⟨congrArg (fun f => [f]) (made_eq h₁.1).symm, h₁.2⟩
  | thunks methods =>
    refine (ends_emitThunks hu methods h hmethods).imp (fun fs v₁ h₁ => ?_) fun _ _ h₁ => h₁
    simp only [Demand.classes, List.append_nil]
    exact ⟨h₁.1.trans (List.append_nil _).symm, h₁.2⟩
  | lookup className =>
    obtain ⟨decl, hdecl⟩ := hclasses className List.mem_cons_self
    rw [Demand.ask, Step.ends_bind]
    refine (h.ends_defineLookup hu hdecl).imp (fun f v₁ h₁ => ?_) fun _ _ h₁ => h₁
    simp only [Demand.methods, List.append_nil]
    exact ⟨congrArg (fun f => [f]) (made_eq h₁.1).symm, h₁.2⟩

/-- Any number of requests. -/
theorem ends_serve (hu : u.Coherent refs) (requests : List Demand) :
    ∀ {ms : List Method} {cs : List String} {v : Module}, u.Holds refs ms cs v →
      u.Serves requests →
      Step.Ends (serve requests) v (fun answers v' => answers = requests.map u.answerOf ∧
        u.Holds refs (ms ++ requests.flatMap Demand.methods)
          (cs ++ requests.flatMap Demand.classes) v') fun _ _ => False := by
  -- `Holds` carries what was asked for before, so it says what each further request finds
  induction requests with
  | nil =>
    intro ms cs v h _
    simp only [List.flatMap_nil, List.append_nil]
    exact ⟨rfl, h⟩
  | cons r rest ih =>
    intro ms cs v h hserves
    obtain ⟨hmethods, hclasses⟩ := hserves
    rw [List.flatMap_cons, List.forall_mem_append] at hmethods hclasses
    rw [serve, List.mapM_cons, Step.ends_bind]
    refine (ends_ask hu h r hmethods.1 hclasses.1).imp (fun fs v₁ h₁ => ?_) fun _ _ h₁ => h₁
    obtain ⟨rfl, hholds₁⟩ := h₁
    rw [Step.ends_bind]
    refine (ih hholds₁ ⟨hmethods.2, hclasses.2⟩).imp (fun answers v₂ h₂ => ?_) fun _ _ h₂ => h₂
    obtain ⟨rfl, hholds₂⟩ := h₂
    rw [List.append_assoc, List.append_assoc] at hholds₂
    exact ⟨rfl, hholds₂⟩

end Holds

theorem Serves.thunkEntry {requests : List Demand} (h : u.Serves requests) (hu : u.Coherent refs) :
    ∀ m ∈ requests.flatMap Demand.methods, ∃ entry, u.thunkEntry m = .ok entry := fun m hm =>
  exists_thunkEntry hu ((h.methods m hm).mem hu.references) ((h.methods m hm).askable hu)

end Module

/-! ### Shapes, asked for in two ways -/

namespace Shapes

/-- All thunks and a look-up function. -/
def requests : List Module.Demand := [.thunk area, .thunks [outline, squareArea], .lookup "Shape"]

end Shapes

end Dispatch
