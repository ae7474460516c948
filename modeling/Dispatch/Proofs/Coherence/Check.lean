import Dispatch.Proofs.Coherence

/-!
# Checking that a module fits together

Whether the declarations of a module fit together can be computed: each condition looks
at finitely many declarations.

## Main definitions

* `Hierarchy.steps?` — how many steps a class is below another.
* `Hierarchy.fits`, `Module.fits` — do the declarations fit together?
* `Shapes.unit`, `Crossed.unit` — two small modules.

## Main results

* `Hierarchy.descends_of_steps?`, `Hierarchy.wellFormed_of_fits`,
  `Module.coherent_of_fits` — the checks are sound.
-/

namespace Dispatch

/-! ### Declarations -/

namespace Hierarchy

/-- The number of steps from a class up to one of its superclasses, if it is at most
`fuel`. -/
def stepsTo? (h : Hierarchy) (ancestor : String) : Nat → String → Option Nat
  | 0, _ => none
  | fuel + 1, name =>
    match h.classNamed name with
    | .error _ => none
    | .ok decl =>
      if name = ancestor then some 0
      else match decl.superclass with
        | none => none
        | some parent => (h.stepsTo? ancestor fuel parent).map (· + 1)

/-- The number of steps from a class up to one of its superclasses. -/
def steps? (h : Hierarchy) (ancestor name : String) : Option Nat :=
  h.stepsTo? ancestor (h.classes.length + 1) name

theorem descends_of_stepsTo? {h : Hierarchy} {ancestor : String} (fuel : Nat) :
    ∀ {name : String} {n : Nat}, h.stepsTo? ancestor fuel name = some n →
      h.Descends ancestor n name := by
  induction fuel with
  | zero => exact nofun
  | succ fuel ih =>
    intro name n hn
    rw [stepsTo?] at hn
    cases hdecl : h.classNamed name with
    | error fault =>
      rw [hdecl] at hn
      cases hn
    | ok decl =>
      simp only [hdecl] at hn
      split at hn
      · next heq =>
        cases hn
        subst heq
        exact .refl hdecl
      · split at hn
        · cases hn
        · next parent hparent =>
          obtain ⟨n', hn', rfl⟩ := Option.map_eq_some_iff.mp hn
          exact .step hdecl hparent (ih hn')

theorem descends_of_steps? {h : Hierarchy} {ancestor name : String} {n : Nat}
    (hn : h.steps? ancestor name = some n) : h.Descends ancestor n name :=
  descends_of_stepsTo? _ hn

/-- Does the method, declared in the class `name`, replace an entry from above? -/
def replaces (h : Hierarchy) (name : String) (m : Method) : Bool :=
  match h.introducing m with
  | .error _ => false
  | .ok base =>
    match base.owner with
    | .ofProtocol _ => false
    | .ofClass ancestor => (h.steps? ancestor name).any (0 < ·)

/-- Do the declarations fit together? -/
def fits (h : Hierarchy) : Bool :=
  decide (h.classes.map ClassDecl.name).Nodup &&
  h.classes.all (fun c => (h.ancestry c.name).isOk &&
    decide (∀ d ∈ c.methods, d.method.owner = .ofClass c.name) &&
    decide (c.methods.map MethodDecl.method).Nodup &&
    decide (∀ d ∈ c.methods, d.overrides.isSome = true → h.replaces c.name d.method = true)) &&
  decide (h.protocols.map ProtocolDecl.name).Nodup &&
  decide (∀ p ∈ h.protocols, ∀ r ∈ p.requirements, r.owner = .ofProtocol p.name)

theorem wellFormed_of_fits {h : Hierarchy} (hf : h.fits = true) : h.WellFormed := by
  simp only [fits, Bool.and_eq_true, decide_eq_true_eq, List.all_eq_true] at hf
  obtain ⟨⟨⟨hnames, hclasses⟩, hprotocols⟩, hrequirements⟩ := hf
  refine ⟨hnames, fun c hc => Attempt.exists_ok (hclasses c hc).1.1.1,
    fun c hc => (hclasses c hc).1.1.2, fun c hc => (hclasses c hc).1.2,
    fun c hc d hd hover => ?_, hprotocols, hrequirements⟩
  have hreplaces := (hclasses c hc).2 d hd hover
  unfold replaces at hreplaces
  split at hreplaces
  · cases hreplaces
  · next base hbase =>
    split at hreplaces
    · cases hreplaces
    · next ancestor howner =>
      cases hn : h.steps? ancestor c.name with
      | none =>
        rw [hn] at hreplaces
        cases hreplaces
      | some n =>
        rw [hn] at hreplaces
        refine ⟨base, ancestor, n - 1, hbase, howner, ?_⟩
        rw [Nat.sub_add_cancel (of_decide_eq_true hreplaces)]
        exact descends_of_steps? hn

end Hierarchy

/-! ### Modules -/

/-- Do values that are passed by address have a size? -/
def Lowered.isSized (s : Lowered) : Bool :=
  (s.result :: s.carriers).all fun c =>
    match c.passing with
    | .indirect schema => decide (8 * schema.components.length < Size.limit)
    | _ => true

theorem Lowered.sized_of_isSized {s : Lowered} (h : s.isSized = true) : s.Sized := by
  intro c hc schema hschema
  rw [isSized, List.all_eq_true] at h
  have hone := h c (by
    rcases hc with hc | rfl
    · exact List.mem_cons_of_mem _ hc
    · exact List.mem_cons_self)
  rw [hschema] at hone
  exact of_decide_eq_true hone

/-- Are all types of the method's signature known, without generic parameters but those
of the method? -/
def Method.isClosed (p : Pool) (m : Method) : Bool :=
  m.signature.types.all fun type =>
    match p.tree type with
    | .ok t => decide (t.GenericsBelow m.signature.generics.params)
    | .error _ => false

theorem Method.closed_of_isClosed {p : Pool} {m : Method} (h : m.isClosed p = true) :
    m.Closed p := by
  intro type htype
  rw [isClosed, List.all_eq_true] at h
  have hone := h type htype
  split at hone
  · next t ht => exact ⟨t, ht, of_decide_eq_true hone⟩
  · cases hone

namespace Module

variable {u : Module} {refs : List Method}

/-- May the module be asked about these methods? -/
def fitsReferences (u : Module) (refs : List Method) : Bool :=
  decide (∀ c ∈ u.hierarchy.classes, ∀ d ∈ c.methods, d.method ∈ refs) &&
  decide (∀ p ∈ u.hierarchy.protocols, ∀ r ∈ p.requirements, r ∈ refs) &&
  refs.all (fun m => (m.thunkSymbol u.pool).isOk) &&
  decide (∀ m ∈ refs, ∀ m' ∈ refs, m.thunkSymbol u.pool = m'.thunkSymbol u.pool → m = m')

theorem references_of_fits (h : u.fitsReferences refs = true) : u.References refs := by
  simp only [fitsReferences, Bool.and_eq_true, decide_eq_true_eq, List.all_eq_true] at h
  obtain ⟨⟨⟨hmethods, hrequirements⟩, hsymbols⟩, hdistinct⟩ := h
  exact ⟨hmethods, hrequirements, fun m hm => Attempt.exists_ok (hsymbols m hm), hdistinct⟩

/-- Is every implementation called with one signature, and has none the symbol of a
thunk? -/
def fitsImplementations (u : Module) (refs : List Method) : Bool :=
  match u.hierarchy.implementations with
  | .error _ => false
  | .ok pairs =>
    decide (∀ e ∈ pairs, ∀ e' ∈ pairs, e.1 = e'.1 →
      u.layout.lower u.pool e.2 = u.layout.lower u.pool e'.2) &&
    decide (∀ e ∈ pairs, ∀ m ∈ refs, m.thunkSymbol u.pool ≠ .ok e.1)

/-- Does the module fit together, with nothing generated yet? -/
def fits (u : Module) (refs : List Method) : Bool :=
  u.hierarchy.fits && u.fitsReferences refs && u.fitsImplementations refs &&
  decide u.pool.shapes.Nodup && u.layout.frameEdits.isEmpty &&
  u.thunks.cells.isEmpty && u.lookups.cells.isEmpty &&
  u.globals.entries.isEmpty &&
  refs.all (fun m => match u.layout.lower u.pool m with
    | .ok s => s.isSized
    | .error _ => true)

theorem coherent_of_fits (h : u.fits refs = true) : u.Coherent refs := by
  simp only [fits, Bool.and_eq_true, decide_eq_true_eq, List.isEmpty_iff, List.all_eq_true] at h
  obtain ⟨⟨⟨⟨⟨⟨⟨⟨hhierarchy, hrefs⟩, himpl⟩, hpool⟩, hframes⟩, hthunks⟩, hlookups⟩, hglobals⟩,
    hsized⟩ := h
  unfold fitsImplementations at himpl
  split at himpl
  case h_1 => cases himpl
  next pairs hpairs =>
    simp only [Bool.and_eq_true, decide_eq_true_eq] at himpl
    refine ⟨Hierarchy.wellFormed_of_fits hhierarchy, references_of_fits hrefs, hpool, hframes,
      hthunks, hlookups, hglobals, fun symbol m m' hm hm' => ?_, fun symbol m m' hm hm' => ?_,
      fun m hm s hs => ?_⟩
    · obtain ⟨l, hl, hin⟩ := hm
      obtain ⟨l', hl', hin'⟩ := hm'
      rw [hpairs] at hl hl'
      cases hl
      cases hl'
      exact himpl.1 _ hin _ hin' rfl
    · obtain ⟨l, hl, hin⟩ := hm
      rw [hpairs] at hl
      cases hl
      exact himpl.2 _ hin m' hm'
    · have hone := hsized m hm
      rw [hs] at hone
      exact Lowered.sized_of_isSized hone

end Module

/-! ### A small module -/

namespace Shapes

/-- The types of the module: the built-in ones, the instances of the two classes, and a
value of five words, which is passed by address. -/
def pool : Pool := Pool.new.extend [.object "Shape", .object "Square", .tuple [4, 4, 4, 4, 4]]

/-- A method of a class, on instances. -/
def method (owner selector : String) (convention : Convention) (self : TypeId)
    (params : List TypeId) (result : TypeId) : Method where
  module := "shapes"
  owner := .ofClass owner
  selector := selector
  kind := .onInstance
  signature := { convention, generics := {}, selfType := self, params, result, error := some 4 }

/-- The area of a shape, in units that are given as a small number and five large ones. -/
def area : Method := method "Shape" "area" .ordinary 8 [1, 10] 4

/-- Squares have an area of their own. -/
def squareArea : Method := method "Square" "area" .ordinary 9 [1, 10] 4

/-- The outline of a shape, to be waited for. -/
def outline : Method := method "Shape" "outline" .async 8 [1, 10] 4

/-- The methods that the module declares. -/
def methods : List Method := [area, squareArea, outline]

/-- Two classes, the first of which may get more methods later; table entries are
signed. -/
def unit : Module where
  pool := pool
  hierarchy := {
    module := "shapes"
    classes := [
      { name := "Shape", superclass := none, resilient := true,
        methods := [⟨area, "area", .isPublic, none⟩, ⟨outline, "outline", .isPublic, none⟩] },
      { name := "Square", superclass := some "Shape", resilient := false,
        methods := [⟨squareArea, "squareArea", .isPublic, some area⟩] }] }
  options := { signingKey := some .ia }

/-- The native signature of a method. -/
def signature (m : Method) : Lowered :=
  match unit.layout.lower unit.pool m with
  | .ok s => s
  | .error _ => default

theorem coherent_unit : unit.Coherent methods := Module.coherent_of_fits (by decide +kernel)

end Shapes

/-! ### Methods that are easily mixed up -/

namespace Crossed

/-- A method on a class. -/
def method (owner selector : String) (self : TypeId) (params : List TypeId) (result : TypeId)
    (error : Option TypeId) : Method where
  module := "crossed"
  owner := .ofClass owner
  selector := selector
  kind := .onClass
  signature := { convention := .ordinary, generics := {}, selfType := self, params, result, error }

/-- A method with a parameter. -/
def set : Method := method "Left" "set" 8 [7] 0 none

/-- A method without parameters that throws: its error slot is where `set` has the
receiver. -/
def reset : Method := method "Right" "reset" 9 [] 0 (some 4)

/-- A method whose implementation has the symbol of the look-up function of `Left`. -/
def find : Method := method "Right" "find" 9 [7] 4 none

/-- A method whose result is passed by address: the address is where `set` has its
argument. -/
def all : Method := method "Wide" "all" 10 [] 11 none

/-- A method that does nothing. -/
def idle : Method := method "Wide" "idle" 10 [] 0 none

/-- The methods that the module declares. -/
def methods : List Method := [set, reset, find, all, idle]

/-- Three classes that have nothing to do with each other. -/
def unit : Module where
  pool := Pool.new.extend
    [.metatype "Left", .metatype "Right", .metatype "Wide", .tuple [4, 4, 4, 4, 4]]
  hierarchy := {
    module := "crossed"
    classes := [
      { name := "Left", superclass := none, resilient := false,
        methods := [⟨set, "set", .isPublic, none⟩] },
      { name := "Right", superclass := none, resilient := false,
        methods := [⟨reset, "reset", .isPublic, none⟩,
          ⟨find, "_relay_crossed$Left$Mu", .isPublic, none⟩] },
      { name := "Wide", superclass := none, resilient := true,
        methods := [⟨all, "all", .isPublic, none⟩, ⟨idle, "idle", .isPublic, none⟩] }] }

theorem coherent_unit : unit.Coherent methods := Module.coherent_of_fits (by decide +kernel)

end Crossed

/-! ### Results of any type -/

namespace Chests

/-- A method that takes and gives something of any type, so neither is ever loaded. -/
def method (selector : String) (convention : Convention) : Method where
  module := "chests"
  owner := .ofClass "Chest"
  selector := selector
  kind := .onInstance
  signature := {
    convention, generics := { params := 1 }, selfType := 8, params := [9], result := 9
    error := some 4 }

/-- What is in a chest. -/
def contents : Method := method "contents" .ordinary

/-- What is in a chest, to be waited for. -/
def delivery : Method := method "delivery" .async

/-- The methods that the module declares. -/
def methods : List Method := [contents, delivery]

/-- A class that signs its table entries. -/
def unit : Module where
  pool := Pool.new.extend [.object "Chest", .generic 0]
  hierarchy := {
    module := "chests"
    classes := [
      { name := "Chest", superclass := none, resilient := false,
        methods := [⟨contents, "contents", .isPublic, none⟩,
          ⟨delivery, "delivery", .isPublic, none⟩] }] }
  options := { signingKey := some .ia }

/-- The native signature of a method. -/
def signature (m : Method) : Lowered :=
  match unit.layout.lower unit.pool m with
  | .ok s => s
  | .error _ => default

theorem coherent_unit : unit.Coherent methods := Module.coherent_of_fits (by decide +kernel)

end Chests

end Dispatch
