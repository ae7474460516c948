import Dispatch.Proofs.Generation.Lookups
import Dispatch.Proofs.Resolution

/-!
# Modules that fit together

A module can be run when its declarations fit together, the methods that it may be asked
about have thunks of their own, and everybody who calls an implementation does so with one
native signature.

## Main definitions

* `Method.SameShape` — methods whose calls look alike.
* `Module.Implements` — an implementation, with the method as which it is called.
* `Module.Coherent` — a module that fits together, of which nothing is generated yet.

## Main results

* `Layout.lower_of_sameShape` — methods of one shape have one native signature.
* `World.Selects.implements` — the implementation that a call is for is called as the
  method that introduced the entry.
-/

namespace Dispatch

open Attempt

/-! ### Shapes -/

/-- Calls of the two methods look alike, but for the type of the receiver. -/
structure Method.SameShape (m m' : Method) : Prop where
  params : m.signature.params = m'.signature.params
  result : m.signature.result = m'.signature.result
  error : m.signature.error = m'.signature.error
  generics : m.signature.generics = m'.signature.generics
  convention : m.convention = m'.convention

instance (m m' : Method) : Decidable (m.SameShape m') :=
  decidable_of_iff (m.signature.params = m'.signature.params ∧
      m.signature.result = m'.signature.result ∧ m.signature.error = m'.signature.error ∧
      m.signature.generics = m'.signature.generics ∧ m.convention = m'.convention)
    ⟨fun h => ⟨h.1, h.2.1, h.2.2.1, h.2.2.2.1, h.2.2.2.2⟩,
      fun h => ⟨h.params, h.result, h.error, h.generics, h.convention⟩⟩

theorem Method.SameShape.refl (m : Method) : m.SameShape m := ⟨rfl, rfl, rfl, rfl, rfl⟩

/-- Methods of one shape have one native signature. -/
theorem Layout.lower_of_sameShape {l : Layout} {p : Pool} {m m' : Method} (h : m.SameShape m')
    (hwitness : m.isWitness = m'.isWitness) : l.lower p m = l.lower p m' := by
  have hthrows : m.signature.throws = m'.signature.throws := by
    rw [Signature.throws, Signature.throws, h.error]
  have hframe : l.frame p m = l.frame p m' := by
    simp only [Layout.frame, Layout.standardFrame, Layout.layOut, h.params, h.result, hthrows,
      h.generics, hwitness]
  rw [Layout.lower, Layout.lower, h.params, h.result, hthrows, h.generics, h.convention, hwitness,
    hframe]

/-! ### Implementations -/

namespace Module

variable {u : Module} {refs : List Method} {symbol : String} {m : Method}

/-- The symbol is that of an implementation, which is called with the native signature of
the method. -/
def Implements (u : Module) (symbol : String) (m : Method) : Prop :=
  ∃ implementations, u.hierarchy.implementations = .ok implementations ∧
    (symbol, m) ∈ implementations

/-- A module that fits together, of which nothing is generated yet.  The methods that it
may be asked about are `refs`. -/
structure Coherent (u : Module) (refs : List Method) : Prop where
  hierarchy : u.hierarchy.WellFormed
  references : u.References refs
  pool : u.pool.Distinct
  /-- The target lays out frames in the standard way. -/
  frames : u.layout.frameEdits = []
  thunks : u.thunks.cells = []
  lookups : u.lookups.cells = []
  globals : u.globals.entries = []
  /-- An implementation is called with one native signature. -/
  signatures : ∀ symbol m m', u.Implements symbol m → u.Implements symbol m' →
    u.layout.lower u.pool m = u.layout.lower u.pool m'
  /-- No implementation has the symbol of a thunk. -/
  apart : ∀ symbol m m', u.Implements symbol m → m' ∈ refs →
    m'.thunkSymbol u.pool ≠ .ok symbol
  /-- Values that are passed by address have a size. -/
  sized : ∀ m ∈ refs, ∀ s, u.layout.lower u.pool m = .ok s → s.Sized

/-- At first nothing is generated. -/
theorem Coherent.generated (h : u.Coherent refs) : u.Generated refs u where
  hierarchy := rfl
  layout := rfl
  options := rfl
  pool := .refl _
  distinct := h.pool
  thunkKeys := by
    rw [Registry.view_of_cells_nil h.thunks]
    exact List.nodup_nil
  lookupKeys := by
    rw [Registry.view_of_cells_nil h.lookups]
    exact List.nodup_nil
  thunks m entry hentry := by
    cases (Registry.get?_of_cells_nil h.thunks m).symm.trans hentry
  lookups className entry hentry := by
    cases (Registry.get?_of_cells_nil h.lookups className).symm.trans hentry
  globals symbol g hg := by
    cases (Table.get?_of_entries_nil h.globals symbol).symm.trans hg

/-- Every implementation of a declaration or of a conformance is there. -/
theorem mem_implementations {implementations : List (String × Method)}
    (h : u.hierarchy.implementations = .ok implementations) :
    (symbol, m) ∈ implementations ↔
      (∃ c ∈ u.hierarchy.classes, ∃ d ∈ c.methods, symbol = d.implementation ∧
        u.hierarchy.introducing d.method = .ok m) ∨
      ∃ c ∈ u.hierarchy.conformances, ∃ protocol,
        u.hierarchy.protocolNamed c.protocol = .ok protocol ∧
        (symbol, m) ∈ c.witnesses.zip protocol.requirements := by
  rw [Hierarchy.implementations, bind_eq_ok] at h
  obtain ⟨ofClasses, hclasses, h⟩ := h
  rw [bind_eq_ok] at h
  obtain ⟨ofConformances, hconformances, h⟩ := h
  cases h
  rw [List.mem_append]
  constructor
  · rintro (hin | hin)
    · obtain ⟨d, hd, hpair⟩ := mem_of_mem_mapM hclasses _ hin
      obtain ⟨c, hc, hd⟩ := List.mem_flatMap.mp hd
      obtain ⟨base, hbase, hpair⟩ := bind_eq_ok.mp hpair
      cases hpair
      exact .inl ⟨c, hc, d, hd, rfl, hbase⟩
    · obtain ⟨pairs, hpairs, hin⟩ := List.mem_flatten.mp hin
      obtain ⟨c, hc, hzip⟩ := mem_of_mem_mapM hconformances _ hpairs
      obtain ⟨protocol, hprotocol, hzip⟩ := bind_eq_ok.mp hzip
      cases hzip
      exact .inr ⟨c, hc, protocol, hprotocol, hin⟩
  · rintro (⟨c, hc, d, hd, rfl, hbase⟩ | ⟨c, hc, protocol, hprotocol, hin⟩)
    · obtain ⟨pair, hin, hpair⟩ := mem_of_mapM hclasses d (List.mem_flatMap.mpr ⟨c, hc, hd⟩)
      rw [hbase] at hpair
      cases hpair
      exact .inl hin
    · obtain ⟨pairs, hpairs, hzip⟩ := mem_of_mapM hconformances c hc
      rw [hprotocol] at hzip
      cases hzip
      exact .inr (List.mem_flatten.mpr ⟨_, hpairs, hin⟩)

/-- Implementations are called as methods that the module declares. -/
theorem Coherent.mem_of_implements (h : u.Coherent refs) (hi : u.Implements symbol m) :
    m ∈ refs := by
  obtain ⟨implementations, himpl, hin⟩ := hi
  rcases (mem_implementations himpl).mp hin with ⟨c, hc, d, hd, rfl, hbase⟩ | hwitness
  · exact h.references.of_introducing hbase
  · obtain ⟨c, -, protocol, hprotocol, hzip⟩ := hwitness
    have hprotocols : protocol ∈ u.hierarchy.protocols := by
      unfold Hierarchy.protocolNamed at hprotocol
      split at hprotocol
      · next hfind =>
        cases hprotocol
        exact List.mem_reverse.mp (List.mem_of_find?_eq_some hfind)
      · cases hprotocol
    exact h.references.requirements protocol hprotocols m (List.of_mem_zip hzip).2

end Module

/-! ### The implementation that a call is for -/

namespace World

variable {u : Module} {w : World} {m : Method} {receiver : Word} {symbol : String}
  {witness : Option (Word × Word)}

/-- A call needs its witness only if the method has one. -/
theorem Selects.sent (h : Selects u w m receiver witness symbol) :
    Selects u w m receiver (if m.isWitness then witness else none) symbol := by
  cases h with
  | ofClass howner hdescends hclass hkind hreceiver hselected =>
    exact .ofClass howner hdescends hclass hkind hreceiver hselected
  | ofProtocol howner hprotocol hconformance htable hwitness hindex hsymbol =>
    rw [if_pos (by rw [Method.isWitness, howner]; rfl)]
    exact .ofProtocol howner hprotocol hconformance htable hwitness hindex hsymbol

/-- The implementation that a call is for is called as the method that introduced the
entry: the method itself if it is a requirement. -/
theorem Selects.implements (h : Selects u w m receiver witness symbol)
    (hwf : u.hierarchy.WellFormed) {implementations : List (String × Method)}
    (himpl : u.hierarchy.implementations = .ok implementations) :
    ∃ base, u.Implements symbol base ∧ base.isWitness = m.isWitness ∧
      (base = m ∨ u.hierarchy.introducing m = .ok base) := by
  cases h with
  | @ofClass owner dynamic n metadata isMetadata howner hdescends hclass hkind hreceiver hselected =>
    rw [Hierarchy.selected, bind_eq_ok] at hselected
    obtain ⟨base, hbase, hselected⟩ := hselected
    rw [bind_eq_ok] at hselected
    obtain ⟨t, ht, hselected⟩ := hselected
    split at hselected
    case h_2 => cases hselected
    next e he =>
      cases hselected
      have hmethod : e.method = base := by simpa using List.find?_some he
      have hmem : (e.implementation, e.method) ∈ implementations := by
        refine hwf.forall_entries (P := fun e => (e.implementation, e.method) ∈ implementations)
          (fun c hc d hd base' hbase' => ?_) ht e (List.mem_of_find?_eq_some he)
        exact (Module.mem_implementations himpl).mpr (.inl ⟨c, hc, d, hd, rfl, hbase'⟩)
      refine ⟨base, ⟨implementations, himpl, hmethod ▸ hmem⟩, ?_, .inr hbase⟩
      rw [Hierarchy.isWitness_of_introducing hbase,
        Hierarchy.isWitness_of_introducing (Hierarchy.introducing_introducing hbase)]
  | @ofProtocol protocol type decl c metadata table k howner hprotocol hconformance htable hwitness
      hindex hsymbol =>
    refine ⟨m, ⟨implementations, himpl, ?_⟩, rfl, .inl rfl⟩
    have hfind := List.find?_some hconformance
    have hc : c ∈ u.hierarchy.conformances :=
      List.mem_reverse.mp (List.mem_of_find?_eq_some hconformance)
    have hname : c.protocol = protocol := by
      simp only [Bool.and_eq_true, beq_iff_eq] at hfind
      exact hfind.2
    refine (Module.mem_implementations himpl).mpr (.inr ⟨c, hc, decl, hname ▸ hprotocol, ?_⟩)
    obtain ⟨hlt, hmatch, -⟩ := List.findIdx?_eq_some_iff_getElem.mp hindex
    have hrequirement : decl.requirements[k]? = some m := by
      rw [List.getElem?_eq_getElem hlt]
      simpa using hmatch
    exact List.mem_of_getElem? (List.getElem?_zip_eq_some.mpr ⟨hsymbol, hrequirement⟩)

/-- A method that has the shape of what introduced its entry is called with the native
signature of the implementation. -/
theorem Selects.signature (h : Selects u w m receiver witness symbol) {refs : List Method}
    (hu : u.Coherent refs) {implementations : List (String × Method)}
    (himpl : u.hierarchy.implementations = .ok implementations)
    (hshape : ∀ base, u.hierarchy.introducing m = .ok base → m.SameShape base)
    {m' : Method} (hm' : u.Implements symbol m') :
    u.layout.lower u.pool m' = u.layout.lower u.pool m := by
  obtain ⟨base, hbase, hwitness, hcases⟩ := h.implements hu.hierarchy himpl
  rw [hu.signatures symbol m' base hm' hbase]
  rcases hcases with rfl | hintro
  · rfl
  · exact (Layout.lower_of_sameShape (hshape base hintro) hwitness.symm).symm

/-- It is known where the implementation of a method is found that there are receivers
for. -/
theorem Selects.place (h : Selects u w m receiver witness symbol) {refs : List Method}
    (hu : u.Coherent refs) (hw : Tabled u w) :
    ∃ target, Target.ofMethod u.hierarchy u.pool u.options.signingKey m = .ok target := by
  cases h with
  | ofClass howner _ hclass _ _ hselected =>
    obtain ⟨base, slot, _, _, _, hbase, hslot, -⟩ := hw.entry hu.hierarchy hclass hselected
    obtain ⟨signing, hsigning⟩ := Module.exists_signing hu.references hbase
    refine ⟨.virtual slot signing, ?_⟩
    rw [Target.ofMethod, Hierarchy.isWitness_of_introducing hbase, hslot]
    cases hkey : u.options.signingKey with
    | none =>
      rw [hkey] at hsigning
      cases hsigning
      rfl
    | some key =>
      rw [hkey, Option.mapM_some] at hsigning
      obtain ⟨s, hs, hsigning⟩ := bind_eq_ok.mp hsigning
      cases hsigning
      rw [Option.mapM_some, hs]
      rfl
  | @ofProtocol protocol type decl c metadata table k howner hprotocol hconformance htable hwitness
      hindex hsymbol =>
    refine ⟨.witness (k + witnessHeaderWords), ?_⟩
    have hisWitness : m.isWitness = true := by rw [Method.isWitness, howner]; rfl
    rw [Target.ofMethod, if_pos hisWitness]
    simp only [Hierarchy.witnessIndex, howner, hprotocol, ok_bind, hindex]
    rfl

end World

end Dispatch
