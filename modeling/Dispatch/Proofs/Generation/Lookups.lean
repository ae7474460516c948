import Dispatch.Proofs.Generation
import Dispatch.Proofs.Thunk.Lookup

/-!
# Descriptors and look-up functions

A look-up function knows the public methods of its class that nobody overrides.  It is
made once, and what it knows follows from the module as it was at first.

## Main statements

* `Module.References.descriptor_injective` — different methods have different
  descriptors.
* `Module.ends_declareDescriptor` — declaring a descriptor.
* `Module.ends_defineLookup` — generating a look-up function.
* `Module.Generated.function?_lookup` — a look-up function is found by its symbol.
-/

namespace Dispatch

open Attempt

/-! ### Symbols of one method -/

/-- Methods that share one kind of symbol share every kind. -/
theorem Method.entitySymbol_congr {p : Pool} {m m' : Method} {entity : Entity} {symbol : String}
    (h : m.entitySymbol p entity = .ok symbol) (h' : m'.entitySymbol p entity = .ok symbol)
    (other : Entity) : m.entitySymbol p other = m'.entitySymbol p other := by
  rw [entitySymbol, bind_eq_ok] at h h'
  obtain ⟨code, hcode, h⟩ := h
  obtain ⟨code', hcode', h'⟩ := h'
  cases h
  have hparts := String.ofList_injective (Except.ok.inj h')
  rw [entitySymbol, entitySymbol, hcode, hcode', ok_bind, ok_bind]
  simp only [Symbol.ofParts, List.intercalate, List.intersperse, List.flatten_cons,
    List.flatten_nil, List.append_nil, ← List.append_assoc] at hparts ⊢
  rw [List.append_cancel_right hparts]

namespace Module

variable {u v v' : Module} {refs : List Method} {m m' : Method} {className : String}

theorem References.descriptor (hrefs : u.References refs) (hm : m ∈ refs) :
    ∃ symbol, m.descriptorSymbol u.pool = .ok symbol := by
  obtain ⟨symbol, hsymbol⟩ := hrefs.symbols m hm
  rw [Method.thunkSymbol, Method.entitySymbol, bind_eq_ok] at hsymbol
  obtain ⟨code, hcode, -⟩ := hsymbol
  rw [Method.descriptorSymbol, Method.entitySymbol, hcode]
  exact ⟨_, rfl⟩

/-- Different methods have different descriptors. -/
theorem References.descriptor_injective (hrefs : u.References refs) (hm : m ∈ refs)
    (hm' : m' ∈ refs) {symbol : String} (h : m.descriptorSymbol u.pool = .ok symbol)
    (h' : m'.descriptorSymbol u.pool = .ok symbol) : m = m' :=
  hrefs.distinct m hm m' hm' (Method.entitySymbol_congr h h' .dispatchThunk)

/-! ### Declaring descriptors -/

/-- The symbol of a descriptor stands for nothing else. -/
theorem Generated.descriptor (hv : Generated u refs v) (hrefs : u.References refs) (hm : m ∈ refs)
    {symbol : String} (hsymbol : m.descriptorSymbol u.pool = .ok symbol) {g : Global}
    (hg : v.globals.get? symbol = some g) : g = .methodDescriptor m := by
  have hg := hv.globals symbol g hg
  cases g with
  | methodDescriptor m' => rw [hrefs.descriptor_injective hg.1 hm hg.2 hsymbol]
  | asyncPointer function size =>
    have hlast := last?_entitySymbol hsymbol
    rw [hg.1, last?_asyncPointerSymbol] at hlast
    exact absurd hlast (by decide)

/-- A method that has a descriptor of its own: a requirement, or a method that introduced
its entry. -/
def Describes (u : Module) (m : Method) : Prop :=
  m.isWitness = true ∨ u.hierarchy.introduces m = .ok true

theorem ends_declareDescriptor (hv : Generated u refs v) (hrefs : u.References refs)
    (hm : m ∈ refs) :
    Step.Ends (declareDescriptor m) v (fun symbol v' => Generated u refs v' ∧
      v'.thunks = v.thunks ∧ v'.lookups = v.lookups ∧ m.descriptorSymbol u.pool = .ok symbol ∧
      v'.globals.get? symbol = some (.methodDescriptor m))
      fun _ v' => v' = v ∧ ¬ u.Describes m := by
  obtain ⟨symbol, hsymbol⟩ := hrefs.descriptor hm
  have hpool : m.descriptorSymbol v.pool = .ok symbol := by
    rw [Method.descriptorSymbol, (hrefs.known hm).entitySymbol_eq hv.pool]
    exact hsymbol
  -- what is left once the method is known to have a descriptor
  have hdefine : Step.Ends (do
      let symbol ← (m.descriptorSymbol v.pool : Attempt String)
      defineGlobal symbol (.methodDescriptor m)
      return symbol : Generate String) v (fun symbol v' => Generated u refs v' ∧
        v'.thunks = v.thunks ∧ v'.lookups = v.lookups ∧ m.descriptorSymbol u.pool = .ok symbol ∧
        v'.globals.get? symbol = some (.methodDescriptor m))
        fun _ v' => v' = v ∧ ¬ u.Describes m := by
    rw [hpool]
    refine ⟨hv.insertNew ⟨hm, hsymbol⟩, rfl, rfl, hsymbol, ?_⟩
    rw [Table.get?_insertNew, if_pos rfl]
    cases hg : v.globals.get? symbol with
    | none => rfl
    | some g =>
      rw [hv.descriptor hrefs hm hsymbol hg]
      rfl
  rw [declareDescriptor, Step.ends_bind, Step.ends_get]
  cases hwitness : m.isWitness with
  | true => exact hdefine
  | false =>
    have hno : u.hierarchy.introduces m ≠ .ok true → ¬ u.Describes m := by
      intro hintro h
      rcases h with h | h
      · rw [hwitness] at h
        cases h
      · exact hintro h
    rw [hv.hierarchy]
    cases hintro : u.hierarchy.introduces m with
    | error fault =>
      obtain ⟨fault', htrap⟩ : ∃ fault', orTrap .methodDescriptor (.error fault : Attempt Bool)
          = .error fault' := by
        unfold orTrap
        split <;> simp_all
      rw [htrap]
      exact ⟨rfl, hno (by simp [hintro])⟩
    | ok b =>
      cases b with
      | true => exact hdefine
      | false => exact ⟨rfl, hno (by simp [hintro])⟩

/-! ### What look-up functions know -/

/-- The methods that a class introduces, with what is known about them. -/
theorem mem_classMethods (hwf : u.hierarchy.WellFormed) {decl : ClassDecl}
    (hdecl : u.hierarchy.classNamed className = .ok decl) :
    ∃ methods, u.hierarchy.classMethods className = .ok methods ∧
      ∀ c, c ∈ methods ↔ ∃ d ∈ decl.methods, d.overrides = none ∧ c.method = d.method ∧
        c.implementation = d.implementation ∧ c.visibility = d.visibility ∧
        u.hierarchy.isOverridden d.method = .ok c.overridden := by
  have hall : ∀ d : MethodDecl, ∃ b, u.hierarchy.isOverridden d.method = .ok b := fun d =>
    let ⟨b, hb, _⟩ := hwf.isOverridden d.method
    ⟨b, hb⟩
  let flag (d : MethodDecl) : Bool := (hall d).choose
  have hflag : ∀ d, u.hierarchy.isOverridden d.method = .ok (flag d) := fun d =>
    (hall d).choose_spec
  refine ⟨(decl.methods.filter (·.overrides.isNone)).map fun d =>
    ⟨d.method, d.implementation, d.visibility, flag d⟩, ?_, fun c => ?_⟩
  · rw [Hierarchy.classMethods, hdecl, ok_bind]
    refine mapM_ok fun d _ => ?_
    rw [hflag]
    rfl
  · simp only [List.mem_map, List.mem_filter, Option.isNone_iff_eq_none]
    constructor
    · rintro ⟨d, ⟨hd, hnone⟩, rfl⟩
      exact ⟨d, hd, hnone, rfl, rfl, rfl, hflag d⟩
    · rintro ⟨d, hd, hnone, hm, hi, hvis, hov⟩
      rw [hflag] at hov
      exact ⟨d, ⟨hd, hnone⟩, by rw [← hm, ← hi, ← hvis, Except.ok.inj hov]⟩

theorem introducing_of_introduces (h : u.hierarchy.introduces m = .ok true) :
    u.hierarchy.introducing m = .ok m := by
  rw [Hierarchy.introduces, bind_eq_ok] at h
  obtain ⟨d, hd, hnone⟩ := h
  exact Hierarchy.introducing_of_decl hd (Option.isNone_iff_eq_none.mp (Except.ok.inj hnone))

theorem introduces_of_mem (hwf : u.hierarchy.WellFormed) {decl : ClassDecl}
    (hdecl : u.hierarchy.classNamed className = .ok decl) {d : MethodDecl} (hd : d ∈ decl.methods)
    (hnone : d.overrides = none) : u.hierarchy.introduces d.method = .ok true := by
  rw [Hierarchy.introduces, hwf.declOf (Hierarchy.mem_of_classNamed hdecl).1 hd, ok_bind, hnone]
  rfl

theorem References.of_introducing (hrefs : u.References refs) {base : Method}
    (h : u.hierarchy.introducing m = .ok base) : base ∈ refs := by
  obtain ⟨d, hd, hmethod, -⟩ := Hierarchy.declOf_introducing h
  obtain ⟨name, c, -, hc, hmem, -⟩ := Hierarchy.mem_of_declOf hd
  rw [← hmethod]
  exact hrefs.methods c (Hierarchy.mem_of_classNamed hc).1 d hmem

/-- The entries of class methods can be signed. -/
theorem exists_signing (hrefs : u.References refs) {base : Method}
    (hintro : u.hierarchy.introducing m = .ok base) :
    ∃ signing, (u.options.signingKey.mapM fun key => u.hierarchy.signing u.pool key m)
      = .ok signing := by
  cases u.options.signingKey with
  | none => exact ⟨none, rfl⟩
  | some key =>
    obtain ⟨symbol, hsymbol⟩ := hrefs.descriptor (hrefs.of_introducing hintro)
    refine ⟨some ⟨key, discriminator symbol⟩, ?_⟩
    rw [Option.mapM_some, Hierarchy.signing_introducing hintro,
      Hierarchy.signing_eq (Hierarchy.introducing_introducing hintro), hsymbol]
    rfl

theorem ends_candidate (hv : Generated u refs v) (hrefs : u.References refs) {c : ClassMethod}
    (hm : c.method ∈ refs) (hintro : u.hierarchy.introduces c.method = .ok true) :
    Step.Ends (candidate c) v (fun known v' => Generated u refs v' ∧ v'.thunks = v.thunks ∧
      v'.lookups = v.lookups ∧ u.knownCandidate c = .ok known) fun _ _ => False := by
  rw [candidate, Step.ends_bind]
  refine (ends_declareDescriptor hv hrefs hm).imp (fun symbol v₁ h₁ => ?_)
    fun _ _ h => h.2 (Or.inr hintro)
  obtain ⟨hv₁, hthunks, hlookups, hsymbol, -⟩ := h₁
  obtain ⟨signing, hsigning⟩ := exists_signing hrefs (introducing_of_introduces hintro)
  have hsigning₁ : (v₁.options.signingKey.mapM fun key =>
      (liftM ((v₁.hierarchy.signing v₁.pool key c.method).orTrap .discriminator)
        : Generate Signing)) v₁ = .ok signing v₁ := by
    rw [hv₁.options, hv₁.hierarchy]
    cases hkey : u.options.signingKey with
    | none =>
      rw [hkey] at hsigning
      cases hsigning
      rfl
    | some key =>
      rw [hkey, Option.mapM_some, map_eq_ok] at hsigning
      obtain ⟨s, hs, rfl⟩ := hsigning
      rw [Option.mapM_some, orTrap_eq_ok.mpr (Target.signing_extends hv₁.pool hs)]
      rfl
  rw [Step.ends_bind, Step.ends_get, Step.ends_bind]
  refine Step.ends_of_ok hsigning₁ ⟨hv₁, hthunks, hlookups, ?_⟩
  rw [knownCandidate, hsymbol, ok_bind, hsigning, ok_bind]
  rfl

theorem ends_candidates (hrefs : u.References refs) (cs : List ClassMethod) :
    ∀ {v : Module}, Generated u refs v →
      (∀ c ∈ cs, c.method ∈ refs ∧ u.hierarchy.introduces c.method = .ok true) →
      Step.Ends (cs.mapM candidate) v (fun known v' => Generated u refs v' ∧
        v'.thunks = v.thunks ∧ v'.lookups = v.lookups ∧ cs.mapM u.knownCandidate = .ok known)
        fun _ _ => False := by
  induction cs with
  | nil => exact fun hv _ => ⟨hv, rfl, rfl, rfl⟩
  | cons c rest ih =>
    intro v hv hcs
    obtain ⟨hm, hintro⟩ := hcs c List.mem_cons_self
    rw [List.mapM_cons, Step.ends_bind]
    refine (ends_candidate hv hrefs hm hintro).imp (fun known v₁ h₁ => ?_) fun _ _ h => h
    obtain ⟨hv₁, hthunks₁, hlookups₁, hknown⟩ := h₁
    rw [Step.ends_bind]
    refine (ih hv₁ fun c' hc' => hcs c' (List.mem_cons_of_mem _ hc')).imp
      (fun others v₂ h₂ => ?_) fun _ _ h => h
    obtain ⟨hv₂, hthunks₂, hlookups₂, hothers⟩ := h₂
    refine ⟨hv₂, hthunks₂.trans hthunks₁, hlookups₂.trans hlookups₁, ?_⟩
    rw [List.mapM_cons, hknown, ok_bind, hothers, ok_bind]
    rfl

theorem ends_planLookup (hv : Generated u refs v) (hrefs : u.References refs)
    (hwf : u.hierarchy.WellFormed) :
    Step.Ends (planLookup className) v (fun plan v' => Generated u refs v' ∧
      v'.thunks = v.thunks ∧ v'.lookups = v.lookups ∧ u.lookupPlan className = .ok plan)
      fun _ v' => v' = v ∧ ∀ decl, u.hierarchy.classNamed className ≠ .ok decl := by
  rw [planLookup, Step.ends_bind, Step.ends_get, hv.hierarchy]
  cases hdecl : u.hierarchy.classNamed className with
  | error fault =>
    obtain ⟨fault', htrap⟩ : ∃ fault', orTrap .classMethods (u.hierarchy.classMethods className)
        = .error fault' := by
      rw [Hierarchy.classMethods, hdecl, error_bind]
      unfold orTrap
      split <;> simp_all
    rw [htrap]
    exact ⟨rfl, nofun⟩
  | ok decl =>
    obtain ⟨methods, hmethods, hmem⟩ := mem_classMethods hwf hdecl
    rw [orTrap_eq_ok.mpr hmethods, Step.ends_bind, Step.ends_liftM_ok, Step.ends_bind]
    have hdecls := hrefs.methods decl (Hierarchy.mem_of_classNamed hdecl).1
    refine (ends_candidates hrefs _ hv fun c hc => ?_).imp (fun known v₁ h₁ => ?_)
      fun _ _ h => h.elim
    · obtain ⟨d, hd, hnone, hm, -⟩ := (hmem c).mp (List.mem_filter.mp hc).1
      rw [hm]
      exact ⟨hdecls d hd, introduces_of_mem hwf hdecl hd hnone⟩
    · obtain ⟨hv₁, hthunks, hlookups, hknown⟩ := h₁
      have htype : u.hierarchy.typeDescriptor className
          = .ok (classSymbol u.hierarchy.module className .typeDescriptor) := by
        rw [Hierarchy.typeDescriptor, hdecl]
        rfl
      rw [htype]
      refine ⟨hv₁, hthunks, hlookups, ?_⟩
      rw [lookupPlan, hmethods, ok_bind, hknown, ok_bind, htype]
      rfl

/-! ### Generating look-up functions -/

theorem Generated.insertLookup (hv : Generated u refs v) {entry : Entry Unit}
    (h : u.IsLookup className entry) {lookups : Registry String Unit}
    (hview : lookups.view = v.lookups.view.insert className entry) :
    Generated u refs { v with lookups } where
  hierarchy := hv.hierarchy
  layout := hv.layout
  options := hv.options
  pool := hv.pool
  distinct := hv.distinct
  thunkKeys := hv.thunkKeys
  lookupKeys := hview ▸ Table.nodup_keys_insert hv.lookupKeys
  thunks := hv.thunks
  lookups className' entry' h' := by
    rw [Registry.get?_of_view hview] at h'
    split at h'
    · next heq =>
      cases h'
      exact heq ▸ h
    · exact hv.lookups className' entry' h'
  globals := hv.globals

theorem ends_declareLookup (hv : Generated u refs v) :
    Step.Ends (declareLookup className) v (fun entry v' => Generated u refs v' ∧
      v'.lookups.get? className = some entry) fun _ _ => False := by
  have hnew : u.IsLookup className
      { symbol := classSymbol v.hierarchy.module className .lookupFunction, declaration := () } :=
    ⟨by rw [hv.hierarchy], fun _ h => nomatch h⟩
  rw [declareLookup, Step.ends_bind, Step.ends_get]
  simp only [Registry.declare]
  cases hget : v.lookups.get? className with
  | some entry => exact ⟨hv, hget⟩
  | none =>
    refine ⟨hv.insertLookup hnew (Registry.view_add hget _), ?_⟩
    exact Registry.get?_add hget _

/-- Declaring a look-up function gives the entry that is then in the registry. -/
theorem get?_declareLookup {entry : Entry Unit} (h : declareLookup className v = .ok entry v') :
    v'.lookups.get? className = some entry := by
  obtain ⟨_, _, hget, h⟩ := Step.bind_eq_ok.mp h
  cases hget
  obtain ⟨⟨e, lookups⟩, _, hdeclare, h⟩ := Step.bind_eq_ok.mp h
  obtain ⟨hdeclare, rfl⟩ := Step.liftM_eq_ok.mp hdeclare
  obtain ⟨_, _, hset, h⟩ := Step.bind_eq_ok.mp h
  cases hset
  cases h
  exact Registry.get?_declare hdeclare

/-- A declared look-up function has not vanished when it is defined. -/
theorem defineLookup_eq (className : String) : defineLookup className = (do
    let entry ← declareLookup className
    match entry.body with
    | some body => return body
    | none =>
      let emitted ← (emitLookup className entry).observe
      let u ← get
      let (body, lookups) := u.lookups.define className emitted
      set { u with lookups }
      body) := by
  refine Step.bind_congr_ok fun entry v v' h => ?_
  rw [Step.bind_of_ok Step.run_get, get?_declareLookup h]
  rfl

/-- Defining the look-up function of a class gives its code, if there is the class. -/
theorem ends_defineLookup (hv : Generated u refs v) (hrefs : u.References refs)
    (hwf : u.hierarchy.WellFormed) :
    Step.Ends (defineLookup className) v (fun f v' => Generated u refs v' ∧
      ∃ entry, v'.lookups.get? className = some entry ∧ entry.body = some f)
      fun _ v' => Generated u refs v' ∧
        ∀ decl, u.hierarchy.classNamed className ≠ .ok decl := by
  rw [defineLookup_eq, Step.ends_bind]
  refine (ends_declareLookup hv).imp (fun entry v₁ h₁ => ?_) fun _ _ h => h.elim
  obtain ⟨hv₁, hget⟩ := h₁
  have hentry := hv₁.lookups className entry hget
  cases hbody : entry.body with
  | some body => exact ⟨hv₁, entry, hget, hbody⟩
  | none =>
    simp only [Step.ends_bind, Step.ends_observe, emitLookup]
    refine (ends_planLookup hv₁ hrefs hwf).imp (fun plan v₂ h₂ => ?_) fun fault v₂ h₂ => ?_
    · obtain ⟨hv₂, -, hlookups, hplan⟩ := h₂
      have hget₂ : v₂.lookups.get? className = some entry := by rw [hlookups, hget]
      have hdefined : u.IsLookup className { entry with body := some (plan.code entry.symbol) } :=
        ⟨hentry.symbol, fun f hf => ⟨plan, hplan, by
          cases hf
          exact plan.function_eq _⟩⟩
      rw [plan.function_eq, Step.ends_liftM_ok, Step.ends_get, Registry.define, hget₂]
      simp only [hbody, Step.ends_set, Step.ends_liftM_ok]
      exact ⟨hv₂.insertLookup hdefined (Registry.view_start_fill hget₂ _), _,
        Registry.get?_start_fill hget₂ _, rfl⟩
    · obtain ⟨rfl, hno⟩ := h₂
      rw [Step.ends_get, Registry.define, hget]
      simp only [hbody, Step.ends_set, Step.ends_liftM_error]
      exact ⟨⟨hv₁.hierarchy, hv₁.layout, hv₁.options, hv₁.pool, hv₁.distinct, hv₁.thunkKeys,
        hv₁.lookupKeys, hv₁.thunks, hv₁.lookups, hv₁.globals⟩, hno⟩

/-- The symbol of a look-up function. -/
def lookupSymbol (u : Module) (className : String) : String :=
  classSymbol u.hierarchy.module className .lookupFunction

/-- No thunk has the symbol of a look-up function. -/
theorem Generated.thunk_ne_lookup (hv : Generated u refs v) {entry : Entry Lowered}
    (h : v.thunks.get? m = some entry) : entry.symbol ≠ u.lookupSymbol className := by
  intro heq
  have hlast := last?_entitySymbol (hv.thunks m entry h).symbol
  rw [heq, lookupSymbol, last?_classSymbol] at hlast
  exact absurd hlast (by decide)

/-- A look-up function is found by its symbol. -/
theorem Generated.function?_lookup (hv : Generated u refs v) {entry : Entry Unit}
    (h : v.lookups.get? className = some entry) :
    v.function? (u.lookupSymbol className) = entry.body := by
  have hentry := hv.lookups className entry h
  have hthunk : v.thunks.bySymbol? (u.lookupSymbol className) = none :=
    Registry.bySymbol?_eq_none hv.thunkKeys fun m e hget => hv.thunk_ne_lookup hget
  have hlookup : v.lookups.bySymbol? (u.lookupSymbol className) = some entry := by
    rw [lookupSymbol, ← hentry.symbol]
    refine bySymbol?_of_get? hv.lookupKeys h fun className' entry' h' hsymbol => ?_
    have hsymbols := (hv.lookups className' entry' h').symbol.symm.trans
      (hsymbol.trans hentry.symbol)
    exact classSymbol_injective hsymbols
  rw [function?, hthunk, hlookup]
  rfl

end Module

end Dispatch
