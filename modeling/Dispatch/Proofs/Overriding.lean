import Dispatch.Proofs.Coherence.Check

/-!
# Overriding

The table of a class is built by one walk over the declarations of its ancestry, from the
root down.  A declaration that overrides nothing adds an entry; any other one searches for
the method that introduced its entry and replaces the implementation there.  So an entry
ends up with the implementation of the last declaration that belongs to it, however many
overrides of overrides there are, and every declaration has an entry to belong to.

## Main definitions

* `Hierarchy.ClassesFit` — classes whose tables can be built.
* `Hierarchy.MostDerived` — the last of a list of declarations that belong to an entry.

## Main results

* `Hierarchy.Tabulates.addDecl` — one more declaration.
* `Hierarchy.ClassesFit.tabulates` — all declarations of an ancestry.
* `Hierarchy.vtable_mostDerived` — the entries of a table and their implementations.
-/

namespace Dispatch

open Attempt

namespace Hierarchy

variable {h : Hierarchy} {name : String} {c : ClassDecl} {ancestry : List ClassDecl}
  {d : MethodDecl} {ds : List MethodDecl} {m base : Method} {es es' : List VTableEntry}

/-- Every class has an ancestry, owns its methods and declares each of them once, and the
method that introduced what a declaration overrides belongs to a class strictly above. -/
structure ClassesFit (h : Hierarchy) : Prop where
  ancestries : ∀ {name c}, h.classNamed name = .ok c → ∃ ancestry, h.ancestry name = .ok ancestry
  owned : ∀ {name c}, h.classNamed name = .ok c → ∀ d ∈ c.methods, d.method.owner = .ofClass name
  once : ∀ {name c}, h.classNamed name = .ok c → (c.methods.map MethodDecl.method).Nodup
  overrides : ∀ {name c}, h.classNamed name = .ok c → ∀ d ∈ c.methods, d.overrides.isSome = true →
    ∃ base ancestor n, h.introducing d.method = .ok base ∧ base.owner = .ofClass ancestor ∧
      h.Descends ancestor (n + 1) name

theorem WellFormed.classesFit (hw : h.WellFormed) : h.ClassesFit where
  ancestries hc := hw.ancestry hc
  owned hc := by
    obtain ⟨hmem, rfl⟩ := mem_of_classNamed hc
    exact hw.owned _ hmem
  once hc := hw.once _ (mem_of_classNamed hc).1
  overrides hc := by
    obtain ⟨hmem, rfl⟩ := mem_of_classNamed hc
    exact hw.overrides _ hmem

/-! ### The classes of an ancestry -/

/-- No class is above itself, so an ancestry has no class twice. -/
theorem nodup_ancestry (ha : h.ancestry name = .ok ancestry) :
    (ancestry.map ClassDecl.name).Nodup := by
  have key : ∀ ancestry', h.ancestry name = .ok ancestry' → (ancestry.map ClassDecl.name).Nodup := by
    refine ancestry_induct (P := fun name ancestry => ∀ ancestry', h.ancestry name = .ok ancestry' →
      (ancestry.map ClassDecl.name).Nodup) ?_ ?_ ha
    · intro name c _ _ _ _
      exact List.nodup_singleton _
    · intro name c parent above hc hparent habove ih ancestry' ha'
      rw [List.map_append, List.nodup_append]
      refine ⟨ih above habove, List.nodup_singleton _, ?_⟩
      intro a hmem b hb hab
      obtain ⟨c', hc', rfl⟩ := List.mem_map.mp hmem
      rw [List.map_singleton, List.mem_singleton, (mem_of_classNamed hc).2] at hb
      obtain ⟨n, hn⟩ := descends_of_mem_ancestry habove hc'
      rw [hab, hb] at hn
      exact (Descends.step hc hparent hn).not_self ha'
  exact key ancestry ha

/-! ### The declarations of an ancestry -/

/-- The declarations of some classes, in order. -/
def declarations (classes : List ClassDecl) : List MethodDecl := classes.flatMap ClassDecl.methods

/-- The methods that the declarations introduce entries for. -/
def introductions (ds : List MethodDecl) : List Method :=
  (ds.filter (·.overrides.isNone)).map MethodDecl.method

theorem introductions_append (ds ds' : List MethodDecl) :
    introductions (ds ++ ds') = introductions ds ++ introductions ds' := by
  rw [introductions, List.filter_append, List.map_append]
  rfl

theorem mem_introductions (hd : d ∈ ds) (ho : d.overrides = none) :
    d.method ∈ introductions ds :=
  List.mem_map_of_mem (List.mem_filter.mpr ⟨hd, by rw [ho]; rfl⟩)

/-- The table of a class, from all declarations of its ancestry at once. -/
theorem vtable_eq_fold (ha : h.ancestry name = .ok ancestry)
    (hes : (declarations ancestry).foldlM h.addDecl [] = .ok es) :
    ∃ t, h.vtable name = .ok t ∧ t.entries = es := by
  have key : ∀ (classes : List ClassDecl) (t : VTable),
      (declarations classes).foldlM h.addDecl t.entries = .ok es →
        ∃ t', classes.foldlM h.extendTable t = .ok t' ∧ t'.entries = es := by
    intro classes
    induction classes with
    | nil =>
      intro t hes
      cases hes
      exact ⟨t, rfl, rfl⟩
    | cons c classes ih =>
      intro t hes
      rw [declarations, List.flatMap_cons, List.foldlM_append] at hes
      obtain ⟨es₁, h₁, hes⟩ := bind_eq_ok.mp hes
      obtain ⟨t', ht', hentries⟩ := ih ⟨es₁, tableHeaderWords + t.entries.length⟩ hes
      refine ⟨t', ?_, hentries⟩
      rw [List.foldlM_cons, extendTable, h₁, ok_bind]
      exact ht'
  obtain ⟨t, ht, hentries⟩ := key ancestry {} hes
  exact ⟨t, by rw [vtable, ha, ok_bind, ht], hentries⟩

namespace ClassesFit

variable (hf : h.ClassesFit) (ha : h.ancestry name = .ok ancestry)

include hf ha

theorem declOf (hd : d ∈ declarations ancestry) : h.declOf d.method = .ok d := by
  obtain ⟨c, hc, hd⟩ := List.mem_flatMap.mp hd
  have hnamed := classNamed_of_mem_ancestry ha hc
  exact declOf_eq_ok hnamed (hf.owned hnamed d hd) (hf.once hnamed) hd

/-- No method is declared twice in an ancestry: each has one class, and there once. -/
theorem nodup_declarations : ((declarations ancestry).map MethodDecl.method).Nodup := by
  rw [declarations, List.map_flatMap, List.nodup_flatMap]
  refine ⟨fun c hc => hf.once (classNamed_of_mem_ancestry ha hc), ?_⟩
  have hnames := nodup_ancestry ha
  rw [List.Nodup, List.pairwise_map] at hnames
  refine hnames.imp_of_mem ?_
  intro c c' hc hc' hne m hm hm'
  obtain ⟨d, hd, rfl⟩ := List.mem_map.mp hm
  obtain ⟨d', hd', heq⟩ := List.mem_map.mp hm'
  have howner := hf.owned (classNamed_of_mem_ancestry ha hc) d hd
  have howner' := hf.owned (classNamed_of_mem_ancestry ha hc') d' hd'
  rw [heq, howner, Owner.ofClass.injEq] at howner'
  exact hne howner'

theorem nodup_introductions : (introductions (declarations ancestry)).Nodup :=
  (hf.nodup_declarations ha).sublist (List.filter_sublist.map _)

/-- The method that introduced the entry of a declaration is declared in the ancestry. -/
theorem introducing (hd : d ∈ declarations ancestry) :
    ∃ base ∈ introductions (declarations ancestry), h.introducing d.method = .ok base := by
  have hself := hf.declOf ha hd
  cases ho : d.overrides with
  | none => exact ⟨d.method, mem_introductions hd ho, introducing_of_decl hself ho⟩
  | some overridden =>
    obtain ⟨c, hc, hdc⟩ := List.mem_flatMap.mp hd
    obtain ⟨base, ancestor, n, hi, howner, hn⟩ :=
      hf.overrides (classNamed_of_mem_ancestry ha hc) d hdc (by rw [ho]; rfl)
    -- the class of `base` is above `c`, and so in the ancestry
    obtain ⟨d', hd', hbase, ho'⟩ := declOf_introducing hi
    obtain ⟨ancestor', c', howner', hc', hmem, -⟩ := mem_of_declOf hd'
    rw [howner, Owner.ofClass.injEq] at howner'
    subst howner'
    obtain ⟨k, hk⟩ := descends_of_mem_ancestry ha hc
    obtain ⟨c'', hc'', hnamed⟩ := (hn.trans hk).mem_ancestry ha
    rw [hc', Except.ok.injEq] at hnamed
    subst hnamed
    exact ⟨base, hbase ▸ mem_introductions (List.mem_flatMap.mpr ⟨c', hc'', hmem⟩) ho', hi⟩

end ClassesFit

/-! ### One declaration after another -/

/-- The declaration is the last of the list whose entry `m` introduced. -/
def MostDerived (h : Hierarchy) (ds : List MethodDecl) (m : Method) (d : MethodDecl) : Prop :=
  ∃ before after, ds = before ++ d :: after ∧ h.introducing d.method = .ok m ∧
    ∀ d' ∈ after, h.introducing d'.method ≠ .ok m

theorem mostDerived_concat (hi : h.introducing d.method = .ok m) :
    h.MostDerived (ds ++ [d]) m d :=
  ⟨ds, [], rfl, hi, by simp⟩

/-- A declaration that belongs to another entry changes nothing. -/
theorem MostDerived.concat {d' : MethodDecl} (hd : h.MostDerived ds m d)
    (hne : h.introducing d'.method ≠ .ok m) : h.MostDerived (ds ++ [d']) m d := by
  obtain ⟨before, after, rfl, hi, hafter⟩ := hd
  refine ⟨before, after ++ [d'], by simp, hi, ?_⟩
  intro d'' hd''
  rcases List.mem_append.mp hd'' with hd'' | hd''
  · exact hafter d'' hd''
  · rw [List.mem_singleton] at hd''
    rwa [hd'']

/-- The entries after the declarations `ds`: one for each that introduces an entry, with
the implementation of the last declaration that belongs to it. -/
structure Tabulates (h : Hierarchy) (ds : List MethodDecl) (es : List VTableEntry) : Prop where
  methods : es.map VTableEntry.method = introductions ds
  mostDerived : ∀ e ∈ es, ∃ d, h.MostDerived ds e.method d ∧ e.implementation = d.implementation

/-- After a replacement, the entry of `base` has the new implementation and all others
are as before. -/
theorem mem_replaceEntry_of_nodup {implementation : String} {e : VTableEntry}
    (hes : (es.map VTableEntry.method).Nodup) (he : e ∈ replaceEntry base implementation es) :
    (e.method = base ∧ e.implementation = implementation) ∨ (e.method ≠ base ∧ e ∈ es) := by
  induction es with
  | nil => cases he
  | cons e' rest ih =>
    rw [List.map_cons, List.nodup_cons] at hes
    rw [replaceEntry] at he
    split at he
    · next hbase =>
      rcases List.mem_cons.mp he with rfl | he
      · exact Or.inl ⟨hbase, rfl⟩
      · refine Or.inr ⟨fun heq => hes.1 ?_, List.mem_cons_of_mem _ he⟩
        rw [hbase, ← heq]
        exact List.mem_map_of_mem he
    · next hne =>
      rcases List.mem_cons.mp he with rfl | he
      · exact Or.inr ⟨hne, List.mem_cons_self⟩
      · exact (ih hes.2 he).imp_right fun h => ⟨h.1, List.mem_cons_of_mem _ h.2⟩

/-- One more declaration, of a method that is not declared yet. -/
theorem Tabulates.addDecl (ht : h.Tabulates ds es) (hds : (introductions (ds ++ [d])).Nodup)
    (hself : h.declOf d.method = .ok d) (ha : h.addDecl es d = .ok es') :
    h.Tabulates (ds ++ [d]) es' := by
  rcases addDecl_cases ha with ⟨ho, rfl⟩ | ⟨base, ho, hi, rfl⟩
  · -- a new entry, behind all others
    have hnew : introductions [d] = [d.method] := by simp [introductions, ho]
    have hi := introducing_of_decl hself ho
    rw [introductions_append, hnew, List.nodup_append] at hds
    refine ⟨by rw [List.map_append, ht.methods, introductions_append, hnew]; rfl, ?_⟩
    intro e he
    rcases List.mem_append.mp he with he | he
    · obtain ⟨d', hd', himpl⟩ := ht.mostDerived e he
      have hmem : e.method ∈ introductions ds := ht.methods ▸ List.mem_map_of_mem he
      have hne : h.introducing d.method ≠ .ok e.method := by
        rw [hi, ne_eq, Except.ok.injEq]
        exact (hds.2.2 _ hmem _ (List.mem_singleton_self _)).symm
      exact ⟨d', hd'.concat hne, himpl⟩
    · rw [List.mem_singleton] at he
      subst he
      exact ⟨d, mostDerived_concat hi, rfl⟩
  · -- a new implementation for the entry of `base`
    have hnone : introductions [d] = [] := by
      simp [introductions, Option.isSome_iff_ne_none.mp ho]
    rw [introductions_append, hnone, List.append_nil, ← ht.methods] at hds
    refine ⟨by rw [map_method_replaceEntry, ht.methods, introductions_append, hnone,
      List.append_nil], ?_⟩
    intro e he
    rcases mem_replaceEntry_of_nodup hds he with ⟨hbase, himpl⟩ | ⟨hne, he⟩
    · exact ⟨d, mostDerived_concat (hbase ▸ hi), himpl⟩
    · obtain ⟨d', hd', himpl⟩ := ht.mostDerived e he
      refine ⟨d', hd'.concat ?_, himpl⟩
      rw [hi, ne_eq, Except.ok.injEq]
      exact fun heq => hne heq.symm

/-- The walk over the declarations of an ancestry ends, with all of them in their places. -/
theorem ClassesFit.tabulates (hf : h.ClassesFit) (ha : h.ancestry name = .ok ancestry) :
    ∃ es, (declarations ancestry).foldlM h.addDecl [] = .ok es ∧
      h.Tabulates (declarations ancestry) es := by
  -- on what remains of the declarations, with those before already in the table
  have key : ∀ (rest done : List MethodDecl) (es : List VTableEntry),
      done ++ rest = declarations ancestry → h.Tabulates done es →
        ∃ es', rest.foldlM h.addDecl es = .ok es' ∧ h.Tabulates (done ++ rest) es' := by
    intro rest
    induction rest with
    | nil =>
      intro done es _ ht
      exact ⟨es, rfl, by rwa [List.append_nil]⟩
    | cons d rest ih =>
      intro done es hall ht
      have hd : d ∈ declarations ancestry := hall ▸ by simp
      obtain ⟨base, -, hi⟩ := hf.introducing ha hd
      obtain ⟨es₁, h₁⟩ : ∃ es₁, h.addDecl es d = .ok es₁ := by
        unfold Hierarchy.addDecl
        split
        · exact ⟨_, rfl⟩
        · exact ⟨_, by rw [hi]; rfl⟩
      have hnodup : (introductions (done ++ [d])).Nodup := by
        have hwhole := hf.nodup_introductions ha
        rw [← hall, List.append_cons, introductions_append] at hwhole
        exact (List.nodup_append.mp hwhole).1
      have ht₁ := ht.addDecl hnodup (hf.declOf ha hd) h₁
      obtain ⟨es', hes', ht'⟩ := ih (done ++ [d]) es₁ (by rw [← List.append_cons, hall]) ht₁
      refine ⟨es', by rw [List.foldlM_cons, h₁, ok_bind, hes'], ?_⟩
      rwa [List.append_cons]
  exact key (declarations ancestry) [] [] rfl ⟨rfl, by simp⟩

/-- Every entry of a table holds the most derived override, and nothing is lost.  The
ancestry of a class leads from a root down to the class, each class being the superclass of
the next.  The entries of the table of the class are those that its ancestry introduces,
root first and in the order of their declarations, each once; an entry has the
implementation of the last declaration that belongs to it; and every declaration of the
ancestry belongs to an entry. -/
theorem vtable_mostDerived (h : Hierarchy) (hf : h.ClassesFit) (name : String) (c : ClassDecl)
    (hc : h.classNamed name = .ok c) :
    ∃ ancestry t, h.ancestry name = .ok ancestry ∧ h.vtable name = .ok t ∧
      (∀ root ∈ ancestry.head?, root.superclass = none) ∧ ancestry.IsChain h.IsSuperclass ∧
      ancestry.getLast? = some c ∧
      t.methods = ((ancestry.flatMap ClassDecl.methods).filter (·.overrides.isNone)).map
        MethodDecl.method ∧
      t.methods.Nodup ∧
      (∀ e ∈ t.entries, ∃ d, h.MostDerived (ancestry.flatMap ClassDecl.methods) e.method d ∧
        e.implementation = d.implementation) ∧
      ∀ d ∈ ancestry.flatMap ClassDecl.methods, ∃ e ∈ t.entries,
        h.introducing d.method = .ok e.method := by
  obtain ⟨ancestry, ha⟩ := hf.ancestries hc
  obtain ⟨es, hes, htab⟩ := hf.tabulates ha
  obtain ⟨t, ht, rfl⟩ := vtable_eq_fold ha hes
  obtain ⟨hroot, hchain, hlast⟩ := isChain_ancestry ha
  refine ⟨ancestry, t, ha, ht, hroot, hchain, hlast c hc, htab.methods, ?_, htab.mostDerived, ?_⟩
  · rw [VTable.methods, htab.methods]
    exact hf.nodup_introductions ha
  · intro d hd
    obtain ⟨base, hbase, hi⟩ := hf.introducing ha hd
    rw [← htab.methods] at hbase
    obtain ⟨e, he, rfl⟩ := List.mem_map.mp hbase
    exact ⟨e, he, hi⟩

end Hierarchy

namespace Shapes

/-- Tiles have an area of their own, in place of the one that squares have. -/
def tileArea : Method := method "Tile" "area" .ordinary 9 [1, 10] 4

/-- The edge of a tile. -/
def edge : Method := method "Tile" "edge" .ordinary 9 [] 4

/-- A third class, which overrides an override. -/
def layers : Hierarchy :=
  unit.hierarchy.addClass
    { name := "Tile", superclass := some "Square", resilient := false,
      methods := [⟨edge, "edge", .isPublic, none⟩,
        ⟨tileArea, "tileArea", .isPublic, some squareArea⟩] }

/-- The area of tiles is the last of three declarations that belong to one entry. -/
theorem tile_mostDerived :
    layers.vtable "Tile" = .ok ⟨[⟨area, "tileArea"⟩, ⟨outline, "outline"⟩, ⟨edge, "edge"⟩], 4⟩ ∧
      ∃ ancestry d, layers.ancestry "Tile" = .ok ancestry ∧
        ancestry.IsChain layers.IsSuperclass ∧
        layers.MostDerived (ancestry.flatMap ClassDecl.methods) area d ∧
        d.implementation = "tileArea" := by
  have hfits : layers.fits = true := by decide +kernel
  have htable : layers.vtable "Tile"
      = .ok ⟨[⟨area, "tileArea"⟩, ⟨outline, "outline"⟩, ⟨edge, "edge"⟩], 4⟩ := by decide +kernel
  obtain ⟨ancestry, t, hancestry, ht, -, hchain, -, -, -, hlast, -⟩ :=
    Hierarchy.vtable_mostDerived layers
      (Hierarchy.wellFormed_of_fits hfits).classesFit "Tile" _ rfl
  rw [htable, Except.ok.injEq] at ht
  subst ht
  obtain ⟨d, hd, himpl⟩ := hlast ⟨area, "tileArea"⟩ List.mem_cons_self
  exact ⟨htable, ancestry, d, hancestry, hchain, hd, himpl.symm⟩

end Shapes

end Dispatch
