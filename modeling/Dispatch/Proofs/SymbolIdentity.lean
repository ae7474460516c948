import Dispatch.Proofs.Mangling

/-!
# What a symbol says about its method

The symbol of a thunk or of a descriptor names the module, the owner, the selector and
what kind of method it is, and its types as far as their names can be read.  The symbol of
an implementation names who provides it in place of the owner.  The number of its parts and
the last of them tell what a symbol is a symbol of.

A class may be called `1`.  Then its name runs into the number before it, and two
overloads can have one symbol.

## Main definitions

* `Method.Matches` — methods that are the same as far as symbols tell.
* `Method.Resembles` — methods that are the same but for the names of their owners.
* `Method.overload` — a method with other parameters.
* `Symbol.Family` — the things that have symbols.

## Main results

* `overloads_distinct` — parameter lists that differ make symbols that differ.
* `Overloads.symbols_meet` — two overloads with one symbol.
* `implementations_resemble` — what an implementation's symbol says, and what it leaves out.
* `Requirements.implementations_meet` — two requirements with one implementation symbol.
* `symbols_identify` — a symbol identifies its method, and what it is a symbol of.
-/

namespace Dispatch

open Attempt Dispatch.Symbol

namespace Method

variable {p : Pool} {m m' : Method}

/-- Two methods that are the same, their receivers' types aside, as far as readable names
go. -/
structure Matches (p : Pool) (m m' : Method) : Prop where
  module : m.module = m'.module
  owner : m.owner = m'.owner
  selector : m.selector = m'.selector
  kind : m.kind = m'.kind
  convention : m.convention = m'.convention
  types : m.Readable p → m'.Readable p → m.signature.params = m'.signature.params ∧
    m.signature.result = m'.signature.result ∧ m.signature.error = m'.signature.error ∧
    m.signature.generics = m'.signature.generics

/-- Two methods whose signatures read alike. -/
structure SameSignature (p : Pool) (m m' : Method) : Prop where
  isProtocol : m.owner.isProtocol = m'.owner.isProtocol
  kind : m.kind = m'.kind
  convention : m.convention = m'.convention
  types : m.Readable p → m'.Readable p → m.signature.params = m'.signature.params ∧
    m.signature.result = m'.signature.result ∧ m.signature.error = m'.signature.error ∧
    m.signature.generics = m'.signature.generics

/-- Two methods that are the same but for the names of their owners, which may be two
classes or two protocols, and the types of their receivers. -/
structure Resembles (p : Pool) (m m' : Method) : Prop extends SameSignature p m m' where
  module : m.module = m'.module
  selector : m.selector = m'.selector

theorem owner_eq (hname : m.owner.name = m'.owner.name)
    (hkind : m.owner.isProtocol = m'.owner.isProtocol) : m.owner = m'.owner := by
  cases h : m.owner <;> cases h' : m'.owner <;> simp_all [Owner.name, Owner.isProtocol]

theorem isProtocol_eq (h : m.ownerLetter = m'.ownerLetter) :
    m.owner.isProtocol = m'.owner.isProtocol := by
  unfold ownerLetter at h
  cases ho : m.owner <;> cases ho' : m'.owner <;> simp_all [Owner.isProtocol]

theorem kind_eq (h : m.kindLetter = m'.kindLetter) : m.kind = m'.kind := by
  unfold kindLetter at h
  cases hk : m.kind <;> cases hk' : m'.kind <;> simp_all

theorem convention_eq (h : m.conventionLetter = m'.conventionLetter) :
    m.convention = m'.convention := by
  unfold conventionLetter at h
  cases hc : m.convention <;> cases hc' : m'.convention <;> simp_all

theorem mapM_error_inj (hp : p.Distinct) {error error' : Option TypeId} {t : Option Ty}
    (h : error.mapM p.tree = .ok t) (h' : error'.mapM p.tree = .ok t) : error = error' := by
  cases error with
  | none =>
    cases h
    cases error' with
    | none => rfl
    | some type' =>
      obtain ⟨_, _, heq⟩ := map_eq_ok.mp h'
      cases heq
  | some type =>
    obtain ⟨u, hu, rfl⟩ := map_eq_ok.mp h
    cases error' with
    | none => cases h'
    | some type' =>
      obtain ⟨u', hu', heq⟩ := map_eq_ok.mp h'
      cases heq
      rw [Pool.tree_inj hp hu hu']

/-- Methods with one signature part. -/
theorem sameSignature_of_code (hp : p.Distinct) {code : List Char}
    (h : m.signatureCode p = .ok code) (h' : m'.signatureCode p = .ok code) :
    m.SameSignature p m' := by
  obtain ⟨params, result, error, hparams, hresult, herror, rfl⟩ := signatureCode_eq_ok.mp h
  obtain ⟨params', result', error', hparams', hresult', herror', heq⟩ :=
    signatureCode_eq_ok.mp h'
  simp only [List.cons.injEq] at heq
  obtain ⟨hletter, hkind, hconvention, htypes⟩ := heq
  exact {
    isProtocol := isProtocol_eq hletter
    kind := kind_eq hkind
    convention := convention_eq hconvention
    types := by
      intro hread hread'
      obtain ⟨rfl, rfl, rfl, hgenerics⟩ := typesCode_inj (hread.types hparams hresult herror)
        (hread'.types hparams' hresult' herror') htypes
      exact ⟨Pool.mapM_tree_inj hp hparams hparams', Pool.tree_inj hp hresult hresult',
        mapM_error_inj hp herror herror', hgenerics⟩ }

/-- Methods with one symbol for the same thing. -/
theorem matches_of_entitySymbol (hp : p.Distinct) {entity : Entity} {symbol : String}
    (h : m.entitySymbol p entity = .ok symbol) (h' : m'.entitySymbol p entity = .ok symbol) :
    m.Matches p m' := by
  obtain ⟨code, hcode, hparts, rfl⟩ := parts_of_entitySymbol h
  obtain ⟨code', hcode', hparts', heq⟩ := parts_of_entitySymbol h'
  have hlist := ofParts_inj hparts hparts' heq
  simp only [List.cons.injEq, and_true] at hlist
  obtain ⟨hmodule, hname, hselector, rfl⟩ := hlist
  have hsame := sameSignature_of_code hp hcode hcode'
  exact {
    module := escape_injective hmodule
    owner := owner_eq (escape_injective hname) hsame.isProtocol
    selector := escape_injective hselector
    kind := hsame.kind
    convention := hsame.convention
    types := hsame.types }

/-- Methods with one implementation symbol. -/
theorem resembles_of_implementationSymbol (hp : p.Distinct)
    {implementor implementor' symbol : String}
    (h : m.implementationSymbol p implementor = .ok symbol)
    (h' : m'.implementationSymbol p implementor' = .ok symbol) :
    implementor = implementor' ∧ m.Resembles p m' := by
  obtain ⟨code, hcode, hparts, rfl⟩ := parts_of_implementationSymbol h
  obtain ⟨code', hcode', hparts', heq⟩ := parts_of_implementationSymbol h'
  have hlist := ofParts_inj hparts hparts' heq
  simp only [List.cons.injEq, and_true] at hlist
  obtain ⟨hmodule, hname, hselector, rfl⟩ := hlist
  exact ⟨escape_injective hname, {
    toSameSignature := sameSignature_of_code hp hcode hcode'
    module := escape_injective hmodule
    selector := escape_injective hselector }⟩

/-- The method as another class or protocol would declare it. -/
def declaredBy (m : Method) (owner : Owner) (selfType : TypeId) : Method :=
  { m with owner, signature := { m.signature with selfType } }

/-- A signature says no more of the owner than whether it is a protocol. -/
theorem signatureCode_declaredBy {owner : Owner} (h : owner.isProtocol = m.owner.isProtocol)
    (selfType : TypeId) : (m.declaredBy owner selfType).signatureCode p = m.signatureCode p := by
  have hletter : (m.declaredBy owner selfType).ownerLetter = m.ownerLetter := by
    unfold ownerLetter declaredBy
    cases ho : m.owner <;> cases owner <;> simp_all [Owner.isProtocol]
  simp only [signatureCode, hletter]
  rfl

end Method

/-! ### Overloads -/

/-- The method with other parameters. -/
def Method.overload (m : Method) (params : List TypeId) : Method :=
  { m with signature := { m.signature with params } }

/-- Types whose names do not begin with digits are determined by their letters, so
methods that differ in such parameters have symbols that differ. -/
theorem overloads_distinct {p : Pool} (hp : p.Distinct) {ids ids' : List TypeId}
    {ts ts' : List Ty} (hids : ids.mapM p.tree = .ok ts) (hids' : ids'.mapM p.tree = .ok ts')
    (hts : Ty.Readable ts) (hts' : Ty.Readable ts') :
    (Ty.codes ts = Ty.codes ts' → ids = ids') ∧
      ∀ (m : Method) (entity : Entity) (symbol : String),
        (m.overload ids).entitySymbol p entity = .ok symbol →
        (m.overload ids').entitySymbol p entity = .ok symbol → ids = ids' := by
  constructor
  · intro hcodes
    obtain ⟨rfl, -⟩ := Ty.codes_append_inj hts hts' Ty.closes_nil Ty.closes_nil
      (congrArg (· ++ []) hcodes)
    exact Pool.mapM_tree_inj hp hids hids'
  · intro m entity symbol h h'
    obtain ⟨code, hcode, hparts, rfl⟩ := Method.parts_of_entitySymbol h
    obtain ⟨code', hcode', hparts', heq⟩ := Method.parts_of_entitySymbol h'
    obtain ⟨params, result, error, hparams, hresult, herror, rfl⟩ :=
      Method.signatureCode_eq_ok.mp hcode
    obtain ⟨params', result', error', hparams', hresult', herror', rfl⟩ :=
      Method.signatureCode_eq_ok.mp hcode'
    have hsame : params = ts := Except.ok.inj (hparams.symm.trans hids)
    have hsame' : params' = ts' := Except.ok.inj (hparams'.symm.trans hids')
    have hlist := ofParts_inj hparts hparts' heq
    simp only [List.cons.injEq, and_true] at hlist
    obtain ⟨-, -, -, -, -, -, htypes⟩ := hlist
    -- the parameters end at the underscore, whatever the result is called
    obtain ⟨rfl, -⟩ := Ty.codes_append_inj (hsame ▸ hts) (hsame' ▸ hts')
      (Ty.closes_cons (by decide)) (Ty.closes_cons (by decide)) htypes
    exact Pool.mapM_tree_inj hp hparams hparams'

/-! ### A name that is a digit -/

namespace Overloads

/-- Types, two of them named. -/
def pool : Pool := Pool.new.extend [.object "1", .object "vvvvvvvvvvv", .object "Box"]

/-- A method without parameters. -/
def put : Method where
  module := "m"
  owner := .ofClass "K"
  selector := "put"
  kind := .onInstance
  signature := { convention := .ordinary, generics := {}, selfType := 10, params := [],
                 result := 4, error := none }

/-- The same method for another receiver. -/
def putUnit : Method := { put with signature := { put.signature with selfType := 0 } }

theorem distinct_pool : pool.Distinct := by
  unfold Pool.Distinct
  decide

end Overloads

/-- A box and a number do not read like two other types. -/
theorem overloads_distinct_box :
    [10, 4].mapM Overloads.pool.tree = .ok [.object "Box", .scalar .i64] ∧
      [9].mapM Overloads.pool.tree = .ok [.object "vvvvvvvvvvv"] ∧
      (Overloads.put.overload [10, 4]).thunkSymbol Overloads.pool
        ≠ (Overloads.put.overload [9]).thunkSymbol Overloads.pool := by
  have hbox : [10, 4].mapM Overloads.pool.tree = .ok [.object "Box", .scalar .i64] := by rfl
  have hlong : [9].mapM Overloads.pool.tree = .ok [.object "vvvvvvvvvvv"] := by rfl
  refine ⟨hbox, hlong, ?_⟩
  intro heq
  have hnames : ((Overloads.put.overload [10, 4]).thunkSymbol Overloads.pool).isOk = true ∧
      Ty.Readable [.object "Box", .scalar .i64] ∧ Ty.Readable [.object "vvvvvvvvvvv"] := by
    decide +kernel
  obtain ⟨hok, hread, hread'⟩ := hnames
  obtain ⟨symbol, hsymbol⟩ := Attempt.exists_ok hok
  have hids := (overloads_distinct Overloads.distinct_pool hbox hlong hread hread').2 Overloads.put
    .dispatchThunk symbol hsymbol (heq.symm.trans hsymbol)
  cases hids

/-- The name 1 runs into its length: a parameter of the class 1 and eleven units read like
one parameter of another class. -/
theorem Overloads.symbols_meet :
    (8 :: List.replicate 11 0).mapM pool.tree
        = .ok (.object "1" :: List.replicate 11 .unit) ∧
      [9].mapM pool.tree = .ok [.object "vvvvvvvvvvv"] ∧
      8 :: List.replicate 11 0 ≠ [9] ∧
      Ty.codes (.object "1" :: List.replicate 11 .unit) = Ty.codes [.object "vvvvvvvvvvv"] ∧
      (put.overload (8 :: List.replicate 11 0)).thunkSymbol pool
        = (put.overload [9]).thunkSymbol pool := by
  exact ⟨rfl, rfl, by decide, by decide +kernel, by decide +kernel⟩

/-! ### Implementations -/

/-- The symbols of two implementations differ unless one implementor provides both, and the
methods are the same but for the names of their owners and the types of their receivers;
those are not part of the symbol. -/
theorem implementations_resemble {p : Pool} (hp : p.Distinct) :
    (∀ (m m' : Method) (implementor implementor' : String), m.Known p → m'.Known p →
      ∃ symbol symbol', m.implementationSymbol p implementor = .ok symbol ∧
        m'.implementationSymbol p implementor' = .ok symbol' ∧
        (symbol = symbol' → implementor = implementor' ∧ m.Resembles p m')) ∧
    ∀ (m : Method) (owner : Owner) (selfType : TypeId) (implementor : String),
      owner.isProtocol = m.owner.isProtocol →
      (m.declaredBy owner selfType).implementationSymbol p implementor =
        m.implementationSymbol p implementor := by
  constructor
  · intro m m' implementor implementor' hm hm'
    obtain ⟨symbol, hsymbol⟩ := hm.exists_implementationSymbol implementor
    obtain ⟨symbol', hsymbol'⟩ := hm'.exists_implementationSymbol implementor'
    refine ⟨symbol, symbol', hsymbol, hsymbol', ?_⟩
    rintro rfl
    exact Method.resembles_of_implementationSymbol hp hsymbol hsymbol'
  · intro m owner selfType implementor howner
    rw [Method.implementationSymbol, Method.implementationSymbol,
      Method.signatureCode_declaredBy howner]
    rfl

namespace Requirements

/-- A requirement of a protocol. -/
def area (protocol : String) (selfType : TypeId) : Method where
  module := "geo"
  owner := .ofProtocol protocol
  selector := "area"
  kind := .onInstance
  signature := { convention := .ordinary, generics := {}, selfType, params := [], result := 6,
                 error := none }

/-- The same requirement of types instead of values. -/
def typeArea : Method := { area "Shape" 8 with kind := .onClass }

/-- Types, two of them the receivers of requirements. -/
def pool : Pool := Pool.new.extend [.protocolSelf "Shape", .protocolSelf "Solid"]

theorem distinct_pool : pool.Distinct := by
  unfold Pool.Distinct
  decide

end Requirements

/-- What a requirement is called on is part of the symbol, and its protocol is not. -/
theorem implementations_resemble_area :
    (Requirements.area "Shape" 8).implementationSymbol Requirements.pool "Square" ≠
        Requirements.typeArea.implementationSymbol Requirements.pool "Square" ∧
      (Requirements.area "Solid" 9).implementationSymbol Requirements.pool "Square" =
        (Requirements.area "Shape" 8).implementationSymbol Requirements.pool "Square" := by
  have hknown : ∀ m ∈ [Requirements.area "Shape" 8, Requirements.typeArea],
      (m.thunkSymbol Requirements.pool).isOk = true := by decide +kernel
  simp only [List.forall_mem_cons, List.not_mem_nil, false_implies, implies_true, and_true]
    at hknown
  obtain ⟨⟨_, harea⟩, _, htypeArea⟩ := hknown.imp Attempt.exists_ok Attempt.exists_ok
  obtain ⟨happart, hsame⟩ := implementations_resemble Requirements.distinct_pool
  constructor
  · obtain ⟨symbol, symbol', hsymbol, hsymbol', himp⟩ := happart _ _ "Square" "Square"
      (Method.known_of_entitySymbol harea) (Method.known_of_entitySymbol htypeArea)
    rw [hsymbol, hsymbol']
    intro heq
    cases (himp (Except.ok.inj heq)).2.kind
  · exact hsame (Requirements.area "Shape" 8) (.ofProtocol "Solid") 9 "Square" rfl

/-- Two protocols may ask a type for the same; the thunks of their requirements are told
apart, and the implementations are not. -/
theorem Requirements.implementations_meet :
    (area "Shape" 8).owner ≠ (area "Solid" 9).owner ∧
      (area "Shape" 8).implementationSymbol pool "Square" = .ok "_relay_geo$Square$area$pio_d" ∧
      (area "Solid" 9).implementationSymbol pool "Square" = .ok "_relay_geo$Square$area$pio_d" ∧
      (area "Shape" 8).thunkSymbol pool ≠ (area "Solid" 9).thunkSymbol pool := by
  decide +kernel

/-! ### Families of symbols -/

namespace Symbol

/-- The things that have symbols. -/
inductive Family where
  | thunk
  | descriptor
  | implementation
  | classEntity
  | asyncPointer
  deriving DecidableEq, Repr

namespace Family

/-- The symbol is one of this family. -/
def Names : Family → String → Prop
  | thunk, symbol => ∃ (p : Pool) (m : Method), m.thunkSymbol p = .ok symbol
  | descriptor, symbol => ∃ (p : Pool) (m : Method), m.descriptorSymbol p = .ok symbol
  | implementation, symbol => ∃ (p : Pool) (m : Method) (implementor : String),
    m.implementationSymbol p implementor = .ok symbol
  | classEntity, symbol => ∃ (module className : String) (entity : Entity),
    symbol = classSymbol module className entity
  | asyncPointer, symbol => ∃ (p : Pool) (m : Method) (function : String),
    m.thunkSymbol p = .ok function ∧ symbol = asyncPointerSymbol function

/-- The family that a symbol with these parts belongs to. -/
def ofParts? : List (List Char) → Option Family
  | [_, _, _] => some classEntity
  | [_, _, _, _] => some implementation
  | [_, _, _, _, code] =>
    if code = Entity.dispatchThunk.code then some thunk else some descriptor
  | [_, _, _, _, _, _] => some asyncPointer
  | _ => none

/-- The number of parts of a symbol and its last part tell the family. -/
theorem Names.parts {family : Family} {symbol : String} (h : family.Names symbol) :
    ∃ parts, IsParts parts ∧ symbol = Symbol.ofParts parts ∧ ofParts? parts = some family := by
  cases family with
  | thunk =>
    obtain ⟨p, m, h⟩ := h
    obtain ⟨code, -, hparts, hsymbol⟩ := Method.parts_of_entitySymbol h
    exact ⟨_, hparts, hsymbol, by simp [ofParts?]⟩
  | descriptor =>
    obtain ⟨p, m, h⟩ := h
    obtain ⟨code, -, hparts, hsymbol⟩ := Method.parts_of_entitySymbol h
    exact ⟨_, hparts, hsymbol, by simp [ofParts?, Entity.code]⟩
  | implementation =>
    obtain ⟨p, m, implementor, h⟩ := h
    obtain ⟨code, -, hparts, hsymbol⟩ := Method.parts_of_implementationSymbol h
    exact ⟨_, hparts, hsymbol, rfl⟩
  | classEntity =>
    obtain ⟨module, className, entity, rfl⟩ := h
    refine ⟨_, ⟨List.cons_ne_nil _ _, ?_⟩, rfl, rfl⟩
    simp only [List.forall_mem_cons]
    exact ⟨separator_notMem_escape _, separator_notMem_escape _, separator_notMem_code entity,
      List.forall_mem_nil _⟩
  | asyncPointer =>
    obtain ⟨p, m, function, h, rfl⟩ := h
    obtain ⟨code, -, hparts, rfl⟩ := Method.parts_of_entitySymbol h
    exact ⟨_, hparts.asyncPointer, asyncPointerSymbol_ofParts hparts.ne_nil, rfl⟩

/-- No symbol belongs to two families. -/
theorem Names.unique {family family' : Family} {symbol : String} (h : family.Names symbol)
    (h' : family'.Names symbol) : family = family' := by
  obtain ⟨parts, hparts, rfl, hfamily⟩ := h.parts
  obtain ⟨parts', hparts', heq, hfamily'⟩ := h'.parts
  rw [ofParts_inj hparts hparts' heq, hfamily'] at hfamily
  exact (Option.some.inj hfamily).symm

end Family

end Symbol

/-- The symbol of a thunk or of a descriptor identifies the method as far as names can be
read, and every symbol tells what it is a symbol of. -/
theorem symbols_identify {p : Pool} (hp : p.Distinct) :
    (∀ (m m' : Method) (symbol : String), m.thunkSymbol p = .ok symbol →
      m'.thunkSymbol p = .ok symbol → m.Matches p m') ∧
    (∀ (m m' : Method) (symbol : String), m.descriptorSymbol p = .ok symbol →
      m'.descriptorSymbol p = .ok symbol → m.Matches p m') ∧
    ∀ (family family' : Family) (symbol : String), family.Names symbol → family'.Names symbol →
      family = family' :=
  ⟨fun _ _ _ h h' => Method.matches_of_entitySymbol hp h h',
    fun _ _ _ h h' => Method.matches_of_entitySymbol hp h h', fun _ _ _ h h' => h.unique h'⟩

/-- A symbol does not name the type of the receiver, and the symbol of a thunk is not that
of a descriptor. -/
theorem symbols_identify_put :
    Overloads.put.thunkSymbol Overloads.pool = .ok "_relay_m$K$put$cio_l$Tj" ∧
      Overloads.putUnit.thunkSymbol Overloads.pool = .ok "_relay_m$K$put$cio_l$Tj" ∧
      Overloads.put.Matches Overloads.pool Overloads.putUnit ∧
      ¬ Family.descriptor.Names "_relay_m$K$put$cio_l$Tj" := by
  obtain ⟨hthunks, -, hfamilies⟩ := symbols_identify Overloads.distinct_pool
  have hsymbols : Overloads.put.thunkSymbol Overloads.pool = .ok "_relay_m$K$put$cio_l$Tj" ∧
      Overloads.putUnit.thunkSymbol Overloads.pool = .ok "_relay_m$K$put$cio_l$Tj" := by
    decide +kernel
  obtain ⟨hput, hunit⟩ := hsymbols
  refine ⟨hput, hunit, hthunks _ _ _ hput hunit, ?_⟩
  intro hdescriptor
  cases hfamilies .thunk .descriptor _ ⟨_, _, hput⟩ hdescriptor

end Dispatch
