import Dispatch.Proofs.Coherence.Check
import Dispatch.Proofs.Reachability

/-!
# Two ways to look a method up

A look-up function answers for the methods that it knows without looking at a table, and
asks the run-time system about all others.  Both ways give the entry that the table of
the class at hand holds: a method that nobody overrides has the same implementation in
every table.

## Main definitions

* `Module.Foresees` — the methods that the look-up function of a class knows.
* `World.EntryOf` — the entry that the table of a class holds for a method.

## Main results

* `World.EntryOf.lookupClassMethod` — the run-time system finds the entry.
* `World.ends_answer` — so does a look-up function, and it asks only about methods that
  it does not know.
* `World.callLookup_eq_askRuntime` — the two ways agree.
-/

namespace Dispatch

open Attempt

/-! ### What a look-up function knows -/

namespace Module

variable {u : Module} {refs : List Method} {m : Method} {className : String}

/-- The look-up function of a class knows the public methods that the class itself
introduced and that nobody overrides. -/
def Foresees (u : Module) (className : String) (m : Method) : Prop :=
  m.owner = .ofClass className ∧
    (∃ d, u.hierarchy.declOf m = .ok d ∧ d.visibility = .isPublic) ∧ ¬ u.hierarchy.Overridden m

theorem mem_candidates (hwf : u.hierarchy.WellFormed) {decl : ClassDecl}
    (hdecl : u.hierarchy.classNamed className = .ok decl) {plan : LookupPlan}
    (hplan : u.lookupPlan className = .ok plan) :
    plan.typeDescriptor = classSymbol u.hierarchy.module className .typeDescriptor ∧
    (∀ known ∈ plan.candidates, ∃ d ∈ decl.methods, d.overrides = none ∧
      d.visibility = .isPublic ∧ ¬ u.hierarchy.Overridden d.method ∧
      d.method.descriptorSymbol u.pool = .ok known.descriptor ∧
      known.implementation = d.implementation ∧
      (u.options.signingKey.mapM fun key => u.hierarchy.signing u.pool key d.method)
        = .ok known.signing) ∧
    ∀ d ∈ decl.methods, d.overrides = none → d.visibility = .isPublic →
      ¬ u.hierarchy.Overridden d.method →
      ∃ known ∈ plan.candidates, d.method.descriptorSymbol u.pool = .ok known.descriptor := by
  obtain ⟨methods, hmethods, hmem⟩ := mem_classMethods hwf hdecl
  rw [lookupPlan, hmethods, ok_bind, bind_eq_ok] at hplan
  obtain ⟨candidates, hcandidates, hplan⟩ := hplan
  rw [Hierarchy.typeDescriptor, hdecl] at hplan
  cases hplan
  refine ⟨rfl, fun known hknown => ?_, fun d hd hnone hpublic hno => ?_⟩
  · obtain ⟨c, hc, hcandidate⟩ := mem_of_mem_mapM hcandidates known hknown
    obtain ⟨hc, hkeep⟩ := List.mem_filter.mp hc
    rw [Bool.and_eq_true, beq_iff_eq, Bool.not_eq_true'] at hkeep
    obtain ⟨d, hd, hnone, hmethod, himpl, hvisibility, hoverridden⟩ := (hmem c).mp hc
    obtain ⟨descriptor, hdescriptor, hcandidate⟩ := bind_eq_ok.mp hcandidate
    obtain ⟨signing, hsigning, hcandidate⟩ := bind_eq_ok.mp hcandidate
    cases hcandidate
    refine ⟨d, hd, hnone, hvisibility ▸ hkeep.1, fun hover => ?_, hmethod ▸ hdescriptor, himpl,
      hmethod ▸ hsigning⟩
    obtain ⟨b, hb, hiff⟩ := hwf.isOverridden d.method
    rw [hoverridden, Except.ok.injEq] at hb
    rw [← hb, hkeep.2] at hiff
    exact absurd (hiff.mpr hover) Bool.false_ne_true
  · obtain ⟨b, hb, hiff⟩ := hwf.isOverridden d.method
    have hfalse : b = false := Bool.eq_false_iff.mpr fun htrue => hno (hiff.mp htrue)
    subst hfalse
    have hc : (⟨d.method, d.implementation, d.visibility, false⟩ : ClassMethod) ∈ methods :=
      (hmem _).mpr ⟨d, hd, hnone, rfl, rfl, rfl, hb⟩
    obtain ⟨known, hknown, hcandidate⟩ := mem_of_mapM hcandidates _ (List.mem_filter.mpr
      ⟨hc, by rw [hpublic]; rfl⟩)
    obtain ⟨descriptor, hdescriptor, hcandidate⟩ := bind_eq_ok.mp hcandidate
    obtain ⟨signing, hsigning, hcandidate⟩ := bind_eq_ok.mp hcandidate
    cases hcandidate
    exact ⟨_, hknown, hdescriptor⟩

/-- A method is among the candidates exactly if the look-up function is to know it. -/
theorem exists_candidate_iff (hu : u.Coherent refs) (hm : m ∈ refs)
    (hintro : u.hierarchy.introduces m = .ok true) {decl : ClassDecl}
    (hdecl : u.hierarchy.classNamed className = .ok decl) {plan : LookupPlan}
    (hplan : u.lookupPlan className = .ok plan) :
    (∃ known ∈ plan.candidates, m.descriptorSymbol u.pool = .ok known.descriptor) ↔
      u.Foresees className m := by
  have hwf := hu.hierarchy
  have hclass := Hierarchy.mem_of_classNamed hdecl
  obtain ⟨-, hall, hevery⟩ := mem_candidates hwf hdecl hplan
  constructor
  · intro ⟨known, hknown, hdescriptor⟩
    obtain ⟨d, hd, -, hpublic, hno, hdescriptor', -⟩ := hall known hknown
    have heq : m = d.method := hu.references.descriptor_injective hm
      (hu.references.methods decl hclass.1 d hd) hdescriptor hdescriptor'
    subst heq
    refine ⟨?_, ⟨d, hwf.declOf hclass.1 hd, hpublic⟩, hno⟩
    rw [hwf.owned decl hclass.1 d hd, hclass.2]
  · intro ⟨howner, ⟨d, hd, hpublic⟩, hno⟩
    obtain ⟨name, c, howner', hc, hmem, hmethod⟩ := Hierarchy.mem_of_declOf hd
    rw [howner] at howner'
    cases howner'
    rw [hdecl] at hc
    cases hc
    subst hmethod
    have hnone : d.overrides = none := by
      rw [Hierarchy.introduces, hd, ok_bind] at hintro
      exact Option.isNone_iff_eq_none.mp (Except.ok.inj hintro)
    exact hevery d hmem hnone hpublic hno

/-- What a look-up function answers for a method that it knows is the entry of every
table. -/
theorem entry_of_candidate (hu : u.Coherent refs) (hm : m ∈ refs) {decl : ClassDecl}
    (hdecl : u.hierarchy.classNamed className = .ok decl) {plan : LookupPlan}
    (hplan : u.lookupPlan className = .ok plan) {known : LookupCandidate}
    (hknown : known ∈ plan.candidates)
    (hdescriptor : m.descriptorSymbol u.pool = .ok known.descriptor)
    {dynamic symbol : String} (hselected : u.hierarchy.selected dynamic m = .ok symbol) :
    known.implementation = symbol ∧ ∀ a, u.entryWord m a = .ok (known.entry a) := by
  have hwf := hu.hierarchy
  have hclass := Hierarchy.mem_of_classNamed hdecl
  obtain ⟨-, hall, -⟩ := mem_candidates hwf hdecl hplan
  obtain ⟨d, hd, hnone, -, hno, hdescriptor', himpl, hsigning⟩ := hall known hknown
  have heq : m = d.method := hu.references.descriptor_injective hm
    (hu.references.methods decl hclass.1 d hd) hdescriptor hdescriptor'
  subst heq
  constructor
  · have hintro := Hierarchy.introducing_of_decl (hwf.declOf hclass.1 hd) hnone
    rw [Hierarchy.selected, hintro, ok_bind, bind_eq_ok] at hselected
    obtain ⟨t, ht, hselected⟩ := hselected
    split at hselected
    case h_2 => cases hselected
    next e he =>
      cases hselected
      have hmethod : e.method = d.method := by simpa using List.find?_some he
      rw [himpl, hwf.keeps_implementation hclass.1 hd hno ht e (List.mem_of_find?_eq_some he)
        hmethod]
  · intro a
    unfold entryWord LookupCandidate.entry
    cases hkey : u.options.signingKey with
    | none =>
      rw [hkey] at hsigning
      rw [← Except.ok.inj hsigning]
    | some key =>
      rw [hkey, Option.mapM_some] at hsigning
      obtain ⟨s, hs, hsigning⟩ := bind_eq_ok.mp hsigning
      rw [← Except.ok.inj hsigning]
      simp only [hs]
      rfl

end Module

namespace World

variable {u : Module} {refs : List Method} {w w' : World} {m : Method}
  {className dynamic : String} {metadata descriptor typeDescriptor entry : Word} {n : Nat}

/-! ### Walking up -/

theorem ClassAt.ne_zero {t : VTable} (h : ClassAt u w dynamic t metadata)
    (hw : w.memory.Sound) : metadata ≠ 0 := by
  intro hzero
  have hlow : 0x1000 ≤ metadata.toNat := hw.low _ h.owns
  rw [hzero] at hlow
  exact absurd hlow (by decide)

/-- The walk up from the metadata of a class comes to each of its superclasses. -/
theorem descendsTo_ok (hw : Tabled u w) (hd : u.hierarchy.Descends className n dynamic)
    (htype : TypeAt u className w typeDescriptor) :
    ∀ {metadata : Word} {steps : Nat}, w.machine.classes.get? dynamic = some metadata →
      n < steps → descendsTo w.memory typeDescriptor steps metadata = .ok true := by
  have hsound := hw.linked.sound
  induction hd with
  | refl hdecl =>
    intro metadata steps hclass hsteps
    obtain ⟨steps, rfl⟩ : ∃ k, steps = k + 1 := ⟨steps - 1, by omega⟩
    obtain ⟨t, hat⟩ := hw.classes _ _ hclass
    obtain ⟨_, _, _, _, hfilled⟩ := hat.filled
    obtain ⟨a, ha, hread⟩ := hfilled.descriptor
    rw [TypeAt, ha] at htype
    cases htype
    rw [descendsTo, if_neg (hat.ne_zero hsound), hread, ok_bind, if_pos rfl]
    rfl
  | @step n name parent decl hdecl hparent _ ih =>
    intro metadata steps hclass hsteps
    obtain ⟨steps, rfl⟩ : ∃ k, steps = k + 1 := ⟨steps - 1, by omega⟩
    obtain ⟨t, hat⟩ := hw.classes _ _ hclass
    obtain ⟨decl', parentWord, hdecl', hword, hfilled⟩ := hat.filled
    rw [hdecl] at hdecl'
    cases hdecl'
    rw [ParentWord, hparent] at hword
    obtain ⟨a, ha, hread⟩ := hfilled.descriptor
    rw [descendsTo, if_neg (hat.ne_zero hsound), hread, ok_bind]
    by_cases heq : a = typeDescriptor
    · rw [if_pos heq]
      rfl
    · have haddress : addWord metadata (UInt64.ofNat wordBytes) = .ok (metadata.plus 8) :=
        addWord_owned (k := 1) hsound hat.owns (two_le_words t)
      rw [if_neg heq, haddress, ok_bind, hfilled.parent, ok_bind]
      exact ih hword (by omega)

/-! ### Entries -/

/-- The entry that the table of the class `dynamic` holds for a method that introduced
its entry. -/
def EntryOf (u : Module) (w : World) (dynamic : String) (m : Method) (entry : Word) : Prop :=
  ∃ symbol a, u.hierarchy.selected dynamic m = .ok symbol ∧ w.link? symbol = some a ∧
    u.entryWord m a = .ok entry

theorem EntryOf.prepares (h : EntryOf u w dynamic m entry) (hw : Prepares w w') :
    EntryOf u w' dynamic m entry := by
  obtain ⟨symbol, a, hselected, ha, hentry⟩ := h
  exact ⟨symbol, a, hselected, hw.link ha, hentry⟩

/-- The entry is where the slot of the method says. -/
theorem EntryOf.read (h : EntryOf u w dynamic m entry) (hw : Tabled u w)
    (hwf : u.hierarchy.WellFormed) (hintro : u.hierarchy.introducing m = .ok m)
    (hclass : w.machine.classes.get? dynamic = some metadata) :
    ∃ slot address, u.hierarchy.slot m = .ok slot ∧ tableSlot metadata slot w = .ok address w ∧
      w.memory.read address = .ok entry := by
  obtain ⟨symbol, a, hselected, ha, hentry⟩ := h
  obtain ⟨base, slot, address, a', word, hbase, hslot, haddress, ha', hword, hread⟩ :=
    hw.entry hwf hclass hselected
  rw [hintro] at hbase
  cases hbase
  rw [ha] at ha'
  cases ha'
  rw [hentry] at hword
  cases hword
  exact ⟨slot, address, hslot, haddress, hread⟩

/-- The class has an entry for every method that it or a class above it introduced. -/
theorem exists_entryOf (hw : Tabled u w) (hwf : u.hierarchy.WellFormed) {owner : String} {k : Nat}
    (hintro : u.hierarchy.introducing m = .ok m) (howner : m.owner = .ofClass owner)
    (hd : u.hierarchy.Descends owner k dynamic)
    (hclass : w.machine.classes.get? dynamic = some metadata) :
    ∃ entry, EntryOf u w dynamic m entry := by
  obtain ⟨t', hat⟩ := hw.classes dynamic metadata hclass
  obtain ⟨owner', t, index, _, howner', htable, hindex, -, -⟩ := hwf.slot hintro
  rw [howner] at howner'
  cases howner'
  obtain ⟨e, -, -, -, hfind⟩ := hd.entry htable hindex hat.table
  have hselected := Hierarchy.selected_eq_ok hintro hat.table hfind
  obtain ⟨base, _, _, a, word, hbase, -, -, ha, hword, -⟩ := hw.entry hwf hclass hselected
  rw [hintro] at hbase
  cases hbase
  exact ⟨word, e.implementation, a, hselected, ha, hword⟩

/-- The run-time system finds the entry. -/
theorem EntryOf.lookupClassMethod (h : EntryOf u w dynamic m entry) (hready : Ready u refs w)
    (hwf : u.hierarchy.WellFormed) (hintro : u.hierarchy.introducing m = .ok m)
    (hclass : w.machine.classes.get? dynamic = some metadata)
    (hd : u.hierarchy.Descends className n dynamic) (hn : n < maxAncestry)
    (hdescriptor : DescriptorAt u m w descriptor) (htype : TypeAt u className w typeDescriptor) :
    World.lookupClassMethod metadata descriptor typeDescriptor w = .ok entry w := by
  obtain ⟨slot, address, hslot, haddress, hread⟩ := h.read hready.tabled hwf hintro hclass
  obtain ⟨symbol, -, hlink, hglobal⟩ := hdescriptor
  have hmethod : (w.nameAt? descriptor).bind w.module.globals.get? = some (.methodDescriptor m) := by
    rw [hready.tabled.linked.nameAt? hlink]
    exact hglobal
  have hdescends := descendsTo_ok hready.tabled hd htype hclass hn
  rw [World.lookupClassMethod, Step.bind_of_ok Step.run_get]
  simp only [hmethod]
  rw [Step.bind_of_ok (inMemory_ok hdescends), if_pos rfl, hready.generated.hierarchy, hslot]
  change (tableSlot metadata slot >>= World.read) w = .ok entry w
  rw [Step.bind_of_ok haddress]
  exact read_ok hread

/-! ### Look-up functions -/

/-- What a look-up function answers.  If it compares with the descriptor of the method,
what it knows is the entry; if it compares with other descriptors only, it asks the
run-time system. -/
theorem ends_answer (hwf : u.hierarchy.WellFormed) (hintro : u.hierarchy.introducing m = .ok m)
    (hd : u.hierarchy.Descends className n dynamic) (hn : n < maxAncestry)
    {symbol : String} (hsymbol : m.descriptorSymbol u.pool = .ok symbol)
    (known : List LookupCandidate) :
    ∀ {w : World}, Ready u refs w → w.machine.classes.get? dynamic = some metadata →
      EntryOf u w dynamic m entry → DescriptorAt u m w descriptor →
      (∀ c ∈ known, c.descriptor = symbol → ∃ a, w.link? c.implementation = some a ∧
        c.entry a = entry) →
      Step.Ends (LookupPlan.answer (classSymbol u.hierarchy.module className .typeDescriptor)
          metadata descriptor known) w
        (fun answer _ => answer.1 = entry ∧
          (answer.2 = false ↔ ∃ c ∈ known, c.descriptor = symbol))
        fun _ w' => Exhausted w' := by
  induction known with
  | nil =>
    intro w hready hclass hentry hdescriptor _
    rw [LookupPlan.answer, Step.ends_bind]
    refine (hready.ends_addressOf _).imp (fun typeDescriptor w₁ h₁ => ?_) fun _ _ h₁ => h₁.2
    obtain ⟨hready₁, hprepares, hmodule, htype⟩ := h₁
    have hfound := (hentry.prepares hprepares).lookupClassMethod hready₁ hwf hintro
      (hprepares.classes ▸ hclass) hd hn (hdescriptor.prepares hprepares hmodule) htype
    rw [Step.ends_bind]
    refine Step.ends_of_ok hfound ⟨rfl, ?_⟩
    simp
  | cons c rest ih =>
    intro w hready hclass hentry hdescriptor hknown
    rw [LookupPlan.answer, Step.ends_bind]
    refine (hready.ends_addressOf _).imp (fun expected w₁ h₁ => ?_) fun _ _ h₁ => h₁.2
    obtain ⟨hready₁, hprepares, hmodule, hlink⟩ := h₁
    have hdescriptor₁ := hdescriptor.prepares hprepares hmodule
    obtain ⟨symbol', hsymbol', hlink', -⟩ := hdescriptor.prepares hprepares hmodule
    rw [hsymbol] at hsymbol'
    cases hsymbol'
    by_cases heq : descriptor = expected
    · -- two symbols with one address are one symbol
      subst heq
      have hc := hready₁.tabled.linked.apart _ _ _ hlink hlink'
      obtain ⟨a, ha, hentry'⟩ := hknown c List.mem_cons_self hc
      rw [if_pos rfl, Step.ends_bind]
      refine Step.ends_of_ok (addressOf_ok (hprepares.link ha)) ⟨hentry', ?_⟩
      exact ⟨fun _ => ⟨c, List.mem_cons_self, hc⟩, fun _ => rfl⟩
    · have hc : c.descriptor ≠ symbol := by
        intro hc
        rw [hc, hlink'] at hlink
        exact heq (Option.some.inj hlink)
      rw [if_neg heq]
      refine (ih hready₁ (hprepares.classes ▸ hclass) (hentry.prepares hprepares) hdescriptor₁
        fun c' hc' hs => ?_).imp (fun answer _ h => ⟨h.1, h.2.trans ?_⟩) fun _ _ h => h
      · obtain ⟨a, ha, hentry'⟩ := hknown c' (List.mem_cons_of_mem _ hc') hs
        exact ⟨a, hprepares.link ha, hentry'⟩
      · simp [hc]

/-- The run-time system answers with the entry. -/
theorem EntryOf.askRuntime (h : EntryOf u w dynamic m entry) (hu : u.Coherent refs)
    (hready : Ready u refs w) (hintro : u.hierarchy.introduces m = .ok true)
    (hclass : w.machine.classes.get? dynamic = some metadata)
    (hd : u.hierarchy.Descends className n dynamic) (hn : n < maxAncestry)
    (hroom : ¬ Exhausted ((askRuntime className metadata m).final w)) :
    ∃ w', World.askRuntime className metadata m w = .ok entry w' := by
  have hself := Module.introducing_of_introduces hintro
  have hm := hu.references.of_introducing hself
  obtain ⟨entry', w', hrun, rfl⟩ : ∃ a w', World.askRuntime className metadata m w = .ok a w' ∧
      a = entry := by
    refine exists_ok_of_room ?_ hroom
    rw [askRuntime_eq, Step.ends_bind]
    refine (ends_prepareQuestion hready hu hm).imp (fun r w₁ h₁ => ?_) fun _ w₁ h₁ => ?_
    · obtain ⟨hready₁, hprepares, htype, hdescriptor⟩ := h₁
      exact Step.ends_of_ok ((h.prepares hprepares).lookupClassMethod hready₁ hu.hierarchy hself
        (hprepares.classes ▸ hclass) hd hn hdescriptor htype) (.inr rfl)
    · obtain ⟨decl, hdecl⟩ := hd.classNamed.2
      exact h₁.2.resolve_right fun hno =>
        hno.elim (fun hno => hno (.inr hintro)) fun hno => hno decl hdecl
  exact ⟨w', hrun⟩

/-- The look-up function answers with the entry, and asks the run-time system only about
methods that it does not know. -/
theorem EntryOf.callLookup (h : EntryOf u w dynamic m entry) (hu : u.Coherent refs)
    (hready : Ready u refs w) (hintro : u.hierarchy.introduces m = .ok true)
    (hclass : w.machine.classes.get? dynamic = some metadata)
    (hd : u.hierarchy.Descends className n dynamic) (hn : n < maxAncestry)
    (hnone : w.machine.implementations.get? (u.lookupSymbol className) = none)
    (hroom : ¬ Exhausted ((callLookup className metadata m).final w)) :
    ∃ w₁ callee descriptor w₂ f code, prepareLookup className m w = .ok (callee, descriptor) w₁ ∧
      w₁.module.function? (u.lookupSymbol className) = some f ∧
      traced (callTo innerDepth) f [metadata, descriptor] w₁ = .ok ([entry], code) w₂ ∧
      World.callLookup className metadata m w = .ok entry w₂ ∧
      (code.any Instr.asksRuntime = false ↔ u.Foresees className m) := by
  have hself := Module.introducing_of_introduces hintro
  have hm := hu.references.of_introducing hself
  obtain ⟨decl, hdecl⟩ := hd.classNamed.2
  have hprepared : Step.Ends (prepareLookup className m) w _ _ := ends_prepareLookup hready hu hm
  cases hp : prepareLookup className m w with
  | error fault w₁ =>
    -- there is such a class and such a descriptor, so memory is exhausted
    rw [Step.final, callLookup_eq, Step.bind_of_error hp] at hroom
    refine absurd ((hprepared.error hp).2.resolve_right fun hno => ?_) hroom
    exact hno.elim (fun hno => hno (.inr hintro)) fun hno => hno decl hdecl
  | ok r w₁ =>
    obtain ⟨callee, descriptor⟩ := r
    obtain ⟨hready₁, hprepares, plan, hlookup⟩ := hprepared.ok hp
    have hnone₁ := hprepares.implementations ▸ hnone
    have hstep : World.callLookup className metadata m w
        = runLookup callee metadata descriptor w₁ := by
      rw [callLookup_eq, Step.bind_of_ok hp]
    have hfinal : (World.callLookup className metadata m).final w
        = (runLookup callee metadata descriptor).final w₁ := by
      rw [Step.final, Step.final, hstep]
    rw [hfinal] at hroom
    have hroom₁ : ¬ Exhausted w₁ := fun hex =>
      hroom ((hlookup.spared_runLookup hready₁ hnone₁).final.exhausted hex)
    have hcall := hlookup.call_eq hready₁ (lt_of_link hready₁.tabled hroom₁ hlookup.callee) hnone₁
      [metadata, descriptor]
    rw [LookupPlan.run_function] at hcall
    obtain ⟨symbol, a, hselected, ha, hentry⟩ := h
    obtain ⟨dsymbol, hdsymbol⟩ := hu.references.descriptor hm
    obtain ⟨htype, -, -⟩ := Module.mem_candidates hu.hierarchy hdecl hlookup.planned
    -- what the look-up function knows of the method is the entry
    have hknown : ∀ c ∈ plan.candidates, c.descriptor = dsymbol →
        ∃ a, w₁.link? c.implementation = some a ∧ c.entry a = entry := by
      intro c hc hcd
      obtain ⟨himpl, hword⟩ := Module.entry_of_candidate hu hm hdecl hlookup.planned hc
        (hcd ▸ hdsymbol) hselected
      refine ⟨a, himpl ▸ hprepares.link ha, ?_⟩
      rw [hword a] at hentry
      exact Except.ok.inj hentry
    have hanswer := ends_answer hu.hierarchy hself hd hn hdsymbol plan.candidates hready₁
      (hprepares.classes ▸ hclass) ⟨symbol, a, hselected, hprepares.link ha, hentry⟩
      hlookup.descriptor hknown
    rw [← htype] at hanswer
    have htraced : Step.Matches (traced (callTo innerDepth)
        (plan.code (u.lookupSymbol className)) [metadata, descriptor]) _ w₁ _ :=
      plan.traced_function (u.lookupSymbol className) metadata descriptor w₁
    rw [map_eq_pure_bind] at hcall
    cases hx : LookupPlan.answer plan.typeDescriptor metadata descriptor plan.candidates w₁ with
    | error fault w₂ =>
      rw [Step.bind_of_error hx] at hcall
      rw [Step.final, runLookup, Step.bind_of_error hcall] at hroom
      exact absurd (hanswer.error hx) hroom
    | ok answer w₂ =>
      rw [Step.bind_of_ok hx] at hcall
      obtain ⟨hvalue, hasks⟩ := hanswer.ok hx
      rw [Step.Matches, hx] at htraced
      obtain ⟨⟨results, code⟩, hrun, hresults, hcode⟩ := htraced
      simp only at hresults hcode
      rw [hresults, hvalue] at hrun
      refine ⟨w₁, callee, descriptor, w₂, _, code, rfl, hlookup.code, hrun, ?_, ?_⟩
      · rw [hstep, runLookup, Step.bind_of_ok hcall, hvalue]
        rfl
      · rw [hcode, hasks, ← Module.exists_candidate_iff hu hm hintro hdecl hlookup.planned,
          hdsymbol]
        simp only [Except.ok.injEq, eq_comm]

/-! ### Agreement -/

/-- In every world that requests lead to, the look-up function of a class and the
run-time system answer with the entry that the table at hand holds for the method, signed
if entries are signed.  The look-up function asks the run-time system exactly about the
methods that it cannot foresee. -/
theorem callLookup_eq_askRuntime {owner : String} {k : Nat} (hu : u.Coherent refs)
    (hw : Reached u refs w) (hintro : u.hierarchy.introduces m = .ok true)
    (howner : m.owner = .ofClass owner) (habove : u.hierarchy.Descends owner k dynamic)
    (hd : u.hierarchy.Descends className n dynamic) (hn : n ≤ 63)
    (hclass : w.machine.classes.get? dynamic = some metadata)
    (hnone : w.machine.implementations.get? (u.lookupSymbol className) = none)
    (hcall : ¬ Exhausted ((callLookup className metadata m).final w))
    (hask : ¬ Exhausted ((askRuntime className metadata m).final w)) :
    ∃ entry w₁ w₂, callLookup className metadata m w = .ok entry w₁ ∧
      askRuntime className metadata m w = .ok entry w₂ ∧ EntryOf u w dynamic m entry ∧
      (∃ slot address, u.hierarchy.slot m = .ok slot ∧
        tableSlot metadata slot w = .ok address w ∧ w.memory.read address = .ok entry) ∧
      ∃ w₀ callee descriptor f code,
        prepareLookup className m w = .ok (callee, descriptor) w₀ ∧
        w₀.module.function? (u.lookupSymbol className) = some f ∧
        traced (callTo innerDepth) f [metadata, descriptor] w₀ = .ok ([entry], code) w₁ ∧
        (code.any Instr.asksRuntime = false ↔ u.Foresees className m) := by
  obtain ⟨hready, -⟩ := hw.ready hu
  have hself := Module.introducing_of_introduces hintro
  have hlimit : n < maxAncestry := Nat.lt_succ_of_le hn
  obtain ⟨entry, hentry⟩ := exists_entryOf hready.tabled hu.hierarchy hself howner habove hclass
  obtain ⟨w₂, hasked⟩ := hentry.askRuntime hu hready hintro hclass hd hlimit hask
  obtain ⟨w₀, callee, descriptor, w₁, f, code, hprepare, hf, htraced, hcalled, hasks⟩ :=
    hentry.callLookup hu hready hintro hclass hd hlimit hnone hcall
  exact ⟨entry, w₁, w₂, hcalled, hasked, hentry,
    hentry.read hready.tabled hu.hierarchy hself hclass,
    w₀, callee, descriptor, f, code, hprepare, hf, htraced, hasks⟩

/-- Both ways to look up the outline of squares. -/
theorem callLookup_eq_askRuntime_outline :
    ∃ entry w₁ w₂, callLookup "Shape" 4240 Shapes.outline Shapes.unit.start = .ok entry w₁ ∧
      askRuntime "Shape" 4240 Shapes.outline Shapes.unit.start = .ok entry w₂ := by
  have hstart : Shapes.unit.boot.isOk = true ∧ ¬ Exhausted Shapes.unit.start ∧
      Shapes.unit.hierarchy.introduces Shapes.outline = .ok true ∧
      Shapes.unit.hierarchy.steps? "Shape" "Square" = some 1 ∧
      Shapes.unit.start.machine.classes.get? "Square" = some 4240 ∧
      Shapes.unit.start.machine.implementations.get? (Shapes.unit.lookupSymbol "Shape") = none ∧
      ¬ Exhausted ((callLookup "Shape" 4240 Shapes.outline).final Shapes.unit.start) ∧
      ¬ Exhausted ((askRuntime "Shape" 4240 Shapes.outline).final Shapes.unit.start) := by
    decide +kernel
  obtain ⟨hboot, hroom, hintro, hsteps, hclass, hnone, hcall, hask⟩ := hstart
  have hdescends := Hierarchy.descends_of_steps? hsteps
  obtain ⟨entry, w₁, w₂, hcalled, hasked, -⟩ := callLookup_eq_askRuntime Shapes.coherent_unit
    (reached_start hboot hroom) hintro rfl hdescends hdescends (by decide) hclass hnone hcall hask
  exact ⟨entry, w₁, w₂, hcalled, hasked⟩

end World

/-! ### Calls that are crossed -/

namespace Crossed

open World

/-- After a call of `set` for the metadata of the other class. -/
def confused : World :=
  (Request.callThunk set { receiver := 0x1070, args := [.value [1]] }).run.final
    ((Request.implement "reset" fun _ _ => .error 7).run.final unit.start)

/-- After an implementation was installed in the place of a look-up function. -/
def replaced : World :=
  (Request.implement "_relay_crossed$Left$Mu" fun _ _ => .ok [42]).run.final unit.start

/-- The two ways to look a method up differ after a call for a receiver that the method
does not have, which can overwrite metadata, and where an implementation stands in the
place of the look-up function. -/
theorem lookups_differ :
    unit.Coherent methods ∧ unit.hierarchy.introduces reset = .ok true ∧
      (callLookup "Right" 0x1070 reset).succeeds confused = true ∧
      (askRuntime "Right" 0x1070 reset).succeeds confused = false ∧
      unit.hierarchy.introduces set = .ok true ∧
      (callLookup "Left" 0x1000 set).value? replaced = some 42 ∧
      (askRuntime "Left" 0x1000 set).value? replaced = some 0x1040 := by
  refine ⟨coherent_unit, ?_⟩
  decide +kernel

end Crossed

end Dispatch
