import Mathlib.Data.List.Chain
import Mathlib.Data.List.Nodup
import Dispatch.Hierarchy.Slots
import Dispatch.Thunk.Target
import Dispatch.Proofs.Types

/-!
# Tables down the hierarchy

A class inherits the table of its superclass and may only change implementations in
it or add entries behind it.  So the entry of a method has one place in the tables of
all classes below the one that introduced it.

## Main definitions

* `Hierarchy.Descends` — a class, an ancestor of it, and the steps between them.
* `Hierarchy.WellFormed` — declarations that fit together.
* `Hierarchy.selected` — the implementation that the table of a class has for a method.

## Main results

* `Hierarchy.Descends.prefix_methods` — the entries of an ancestor stand first.
* `Hierarchy.WellFormed.slot` — where an entry is, for every class that has it.
* `Hierarchy.WellFormed.keeps_implementation` — an entry that nobody overrides keeps
  the implementation that it was declared with.
-/

namespace Dispatch

open Attempt

namespace Attempt

variable {α β : Type}

/-- What every step of a fold keeps, the fold keeps. -/
theorem foldlM_inv {f : β → α → Attempt β} {P : β → Prop} {l : List α} {b b' : β}
    (h : l.foldlM f b = .ok b') (hb : P b)
    (hf : ∀ b x b', x ∈ l → P b → f b x = .ok b' → P b') : P b' := by
  induction l generalizing b with
  | nil =>
    cases h
    exact hb
  | cons x rest ih =>
    rw [List.foldlM_cons] at h
    obtain ⟨b₁, h₁, h⟩ := bind_eq_ok.mp h
    exact ih h (hf b x b₁ List.mem_cons_self hb h₁)
      fun b x b' hx => hf b x b' (List.mem_cons_of_mem _ hx)

theorem foldlM_ok {f : β → α → Attempt β} {l : List α} (b : β)
    (hf : ∀ b, ∀ x ∈ l, ∃ b', f b x = .ok b') : ∃ b', l.foldlM f b = .ok b' := by
  induction l generalizing b with
  | nil => exact ⟨b, rfl⟩
  | cons x rest ih =>
    obtain ⟨b₁, h₁⟩ := hf b x List.mem_cons_self
    obtain ⟨b', h'⟩ := ih b₁ fun b x hx => hf b x (List.mem_cons_of_mem _ hx)
    exact ⟨b', by rw [List.foldlM_cons, h₁, ok_bind, h']⟩

end Attempt

/-- The methods that introduced the entries of a table, in order. -/
def VTable.methods (t : VTable) : List Method := t.entries.map VTableEntry.method

theorem getElem?_of_prefix {α : Type} {l l' : List α} (hl : l <+: l') {k : Nat} {x : α}
    (hx : l[k]? = some x) : l'[k]? = some x := by
  obtain ⟨more, rfl⟩ := hl
  rw [List.getElem?_append_left (List.getElem?_eq_some_iff.mp hx).1, hx]

namespace Hierarchy

variable {h : Hierarchy} {name : String} {c decl : ClassDecl} {m base : Method}
  {t t' : VTable} {n : Nat}

/-! ### Ancestry -/

/-- The class `name` reaches `ancestor` in the given number of superclass steps. -/
inductive Descends (h : Hierarchy) (ancestor : String) : Nat → String → Prop where
  | refl {decl : ClassDecl} (hd : h.classNamed ancestor = .ok decl) : Descends h ancestor 0 ancestor
  | step {n : Nat} {name parent : String} {decl : ClassDecl} (hd : h.classNamed name = .ok decl)
    (hp : decl.superclass = some parent) (hn : Descends h ancestor n parent) :
    Descends h ancestor (n + 1) name

theorem mem_of_classNamed (hc : h.classNamed name = .ok c) : c ∈ h.classes ∧ c.name = name := by
  unfold classNamed at hc
  split at hc
  · next c' hf =>
    cases hc
    exact ⟨List.mem_reverse.mp (List.mem_of_find?_eq_some hf),
      by simpa using List.find?_some hf⟩
  · cases hc

theorem lineageTo_mono :
    ∀ {n n' : Nat} {name : String} {lineage : List ClassDecl}, n ≤ n' →
      h.lineageTo n name = .ok lineage → h.lineageTo n' name = .ok lineage := by
  intro n
  induction n with
  | zero =>
    intro n' name lineage _ hl
    simp [lineageTo, Attempt.trap] at hl
  | succ n ih =>
    intro n' name lineage hle hl
    obtain ⟨n', rfl⟩ : ∃ k, n' = k + 1 := ⟨n' - 1, by omega⟩
    rw [lineageTo] at hl ⊢
    obtain ⟨decl, hd, hl⟩ := bind_eq_ok.mp hl
    rw [hd, ok_bind]
    cases hs : decl.superclass with
    | none => simpa only [hs] using hl
    | some parent =>
      simp only [hs] at hl
      obtain ⟨above, ha, hl⟩ := bind_eq_ok.mp hl
      simp only [ih (Nat.le_of_succ_le_succ hle) ha, ok_bind, hl]

/-- The ancestry of a class is that of its superclass and then the class. -/
theorem ancestry_cases {ancestry : List ClassDecl} (ha : h.ancestry name = .ok ancestry) :
    ∃ decl, h.classNamed name = .ok decl ∧
      ((decl.superclass = none ∧ ancestry = [decl]) ∨
        ∃ parent above, decl.superclass = some parent ∧ h.ancestry parent = .ok above ∧
          ancestry = above ++ [decl]) := by
  obtain ⟨lineage, hl, ha⟩ := bind_eq_ok.mp ha
  cases ha
  rw [lineageTo] at hl
  obtain ⟨decl, hd, hl⟩ := bind_eq_ok.mp hl
  refine ⟨decl, hd, ?_⟩
  cases hs : decl.superclass with
  | none =>
    simp only [hs] at hl
    cases hl
    exact Or.inl ⟨rfl, rfl⟩
  | some parent =>
    simp only [hs] at hl
    obtain ⟨above, habove, hl⟩ := bind_eq_ok.mp hl
    cases hl
    refine Or.inr ⟨parent, above.reverse, rfl, ?_, by simp⟩
    rw [ancestry, lineageTo_mono (Nat.le_succ _) habove, ok_bind]
    rfl

/-- Induction along an ancestry, from the root down. -/
theorem ancestry_induct {P : String → List ClassDecl → Prop} {ancestry : List ClassDecl}
    (hroot : ∀ name c, h.classNamed name = .ok c → c.superclass = none → P name [c])
    (hbelow : ∀ name c parent above, h.classNamed name = .ok c → c.superclass = some parent →
      h.ancestry parent = .ok above → P parent above → P name (above ++ [c]))
    (ha : h.ancestry name = .ok ancestry) : P name ancestry := by
  induction hlen : ancestry.length generalizing name ancestry with
  | zero =>
    obtain ⟨c, hc, ⟨hnone, rfl⟩ | ⟨parent, above, hparent, habove, rfl⟩⟩ := ancestry_cases ha
    · exact hroot name c hc hnone
    · simp at hlen
  | succ len ih =>
    obtain ⟨c, hc, ⟨hnone, rfl⟩ | ⟨parent, above, hparent, habove, rfl⟩⟩ := ancestry_cases ha
    · exact hroot name c hc hnone
    · exact hbelow name c parent above hc hparent habove (ih habove (by simpa using hlen))

/-- `above` is the class that `below` names as its superclass. -/
def IsSuperclass (h : Hierarchy) (above below : ClassDecl) : Prop :=
  ∃ parent, below.superclass = some parent ∧ h.classNamed parent = .ok above

/-- An ancestry leads from a class without a superclass down to the class itself, each class
being the superclass of the next. -/
theorem isChain_ancestry {ancestry : List ClassDecl} (ha : h.ancestry name = .ok ancestry) :
    (∀ root ∈ ancestry.head?, root.superclass = none) ∧ ancestry.IsChain h.IsSuperclass ∧
      ∀ c, h.classNamed name = .ok c → ancestry.getLast? = some c := by
  refine ancestry_induct (P := fun name ancestry =>
    (∀ root ∈ ancestry.head?, root.superclass = none) ∧ ancestry.IsChain h.IsSuperclass ∧
      ∀ c, h.classNamed name = .ok c → ancestry.getLast? = some c) ?_ ?_ ha
  · intro name c hc hnone
    refine ⟨fun root hroot => ?_, .singleton c, fun c' hc' => ?_⟩
    · cases hroot
      exact hnone
    · rw [hc] at hc'
      cases hc'
      rfl
  · intro name c parent above hc hparent habove ⟨hroot, hchain, hlast⟩
    obtain ⟨c', hc', -⟩ := ancestry_cases habove
    have hlast := hlast c' hc'
    refine ⟨fun root hr => ?_, ?_, fun d hd => ?_⟩
    · refine hroot root ?_
      rwa [List.head?_append_of_ne_nil _ fun hnil => by simp [hnil] at hlast] at hr
    · refine List.isChain_append.mpr ⟨hchain, .singleton c, fun a ha b hb => ?_⟩
      rw [hlast, Option.mem_some_iff] at ha
      rw [List.head?_cons, Option.mem_some_iff] at hb
      subst ha hb
      exact ⟨parent, hparent, hc'⟩
    · rw [hc] at hd
      cases hd
      exact List.getLast?_concat

/-- The name of a class of an ancestry means that class. -/
theorem classNamed_of_mem_ancestry {ancestry : List ClassDecl}
    (ha : h.ancestry name = .ok ancestry) (hc : c ∈ ancestry) : h.classNamed c.name = .ok c := by
  refine ancestry_induct (P := fun _ ancestry => ∀ c ∈ ancestry, h.classNamed c.name = .ok c)
    ?_ ?_ ha c hc
  · intro name c hc _ c' hc'
    obtain ⟨-, rfl⟩ := mem_of_classNamed hc
    rw [List.mem_singleton] at hc'
    rwa [hc']
  · intro name c parent above hc _ _ ih c' hc'
    rcases List.mem_append.mp hc' with hc' | hc'
    · exact ih c' hc'
    · obtain ⟨-, rfl⟩ := mem_of_classNamed hc
      rw [List.mem_singleton] at hc'
      rwa [hc']

/-- The classes of an ancestry are above the class. -/
theorem descends_of_mem_ancestry {ancestry : List ClassDecl} (ha : h.ancestry name = .ok ancestry)
    {c : ClassDecl} (hc : c ∈ ancestry) : ∃ n, h.Descends c.name n name := by
  refine ancestry_induct (P := fun name ancestry => c ∈ ancestry → ∃ n, h.Descends c.name n name)
    ?_ ?_ ha hc
  · intro name decl hdecl _ hc
    obtain rfl := List.mem_singleton.mp hc
    obtain ⟨-, rfl⟩ := mem_of_classNamed hdecl
    exact ⟨0, .refl hdecl⟩
  · intro name decl parent above hdecl hparent _ ih hc
    rcases List.mem_append.mp hc with hc | hc
    · obtain ⟨n, hn⟩ := ih hc
      exact ⟨n + 1, .step hdecl hparent hn⟩
    · obtain rfl := List.mem_singleton.mp hc
      obtain ⟨-, rfl⟩ := mem_of_classNamed hdecl
      exact ⟨0, .refl hdecl⟩

/-- An ancestor has an ancestry too, shorter by the steps between. -/
theorem Descends.ancestry {ancestor : String} (hd : h.Descends ancestor n name)
    {ancestry : List ClassDecl} (ha : h.ancestry name = .ok ancestry) :
    ∃ above, h.ancestry ancestor = .ok above ∧ above.length + n = ancestry.length := by
  induction hd generalizing ancestry with
  | refl => exact ⟨ancestry, ha, rfl⟩
  | step hd hp _ ih =>
    obtain ⟨decl, hd', hcases⟩ := ancestry_cases ha
    rw [hd, Except.ok.injEq] at hd'
    subst hd'
    rcases hcases with ⟨hnone, -⟩ | ⟨parent, above, hsome, habove, rfl⟩
    · rw [hp] at hnone
      cases hnone
    · rw [hp, Option.some.injEq] at hsome
      subst hsome
      obtain ⟨above', ha', hlen⟩ := ih habove
      exact ⟨above', ha', by simp; omega⟩

/-- Whatever a class descends from is in its ancestry. -/
theorem Descends.mem_ancestry {ancestor : String} {ancestry : List ClassDecl}
    (hd : h.Descends ancestor n name) (ha : h.ancestry name = .ok ancestry) :
    ∃ c ∈ ancestry, h.classNamed ancestor = .ok c := by
  induction hd generalizing ancestry with
  | refl hd =>
    obtain ⟨c, hc, ⟨-, rfl⟩ | ⟨parent, above, -, -, rfl⟩⟩ := ancestry_cases ha
    · exact ⟨c, List.mem_singleton_self c, hc⟩
    · exact ⟨c, by simp, hc⟩
  | step hd hp _ ih =>
    obtain ⟨c, hc, ⟨hnone, -⟩ | ⟨parent, above, hparent, habove, rfl⟩⟩ := ancestry_cases ha
    · rw [hd, Except.ok.injEq] at hc
      rw [← hc, hp] at hnone
      cases hnone
    · rw [hd, Except.ok.injEq] at hc
      rw [← hc, hp, Option.some.injEq] at hparent
      subst hparent
      obtain ⟨c', hc', hnamed⟩ := ih habove
      exact ⟨c', List.mem_append_left _ hc', hnamed⟩

theorem Descends.trans {a b : String} {k : Nat} (h₁ : h.Descends a k b)
    (h₂ : h.Descends b n name) : h.Descends a (k + n) name := by
  induction h₂ with
  | refl => exact h₁
  | step hd hp _ ih => exact .step hd hp ih

/-- No class with an ancestry is above itself. -/
theorem Descends.not_self {ancestry : List ClassDecl} (ha : h.ancestry name = .ok ancestry)
    (hd : h.Descends name (n + 1) name) : False := by
  obtain ⟨above, ha', hlen⟩ := hd.ancestry ha
  rw [ha, Except.ok.injEq] at ha'
  subst ha'
  omega

/-! ### Declarations that fit together -/

/-- Class names are unique, every class has an ancestry, a class declares each method
once and owns it, an override replaces an entry from above, and protocols have names of
their own and own their requirements. -/
structure WellFormed (h : Hierarchy) : Prop where
  classNames : (h.classes.map ClassDecl.name).Nodup
  ancestries : ∀ c ∈ h.classes, ∃ ancestry, h.ancestry c.name = .ok ancestry
  owned : ∀ c ∈ h.classes, ∀ d ∈ c.methods, d.method.owner = .ofClass c.name
  once : ∀ c ∈ h.classes, (c.methods.map MethodDecl.method).Nodup
  overrides : ∀ c ∈ h.classes, ∀ d ∈ c.methods, d.overrides.isSome = true →
    ∃ base ancestor n, h.introducing d.method = .ok base ∧
      base.owner = .ofClass ancestor ∧ h.Descends ancestor (n + 1) c.name
  protocolNames : (h.protocols.map ProtocolDecl.name).Nodup
  requirements : ∀ p ∈ h.protocols, ∀ r ∈ p.requirements, r.owner = .ofProtocol p.name

/-- In a list with distinct keys, the last element with a key is the only one. -/
theorem find?_reverse_eq_some {α : Type} {key : α → String} {l : List α} {x : α}
    (hl : (l.map key).Nodup) (hx : x ∈ l) :
    l.reverse.find? (fun y => key y == key x) = some x := by
  cases hf : l.reverse.find? (fun y => key y == key x) with
  | none =>
    rw [List.find?_eq_none] at hf
    exact absurd (by simp) (hf x (List.mem_reverse.mpr hx))
  | some y =>
    have hy : y ∈ l := List.mem_reverse.mp (List.mem_of_find?_eq_some hf)
    have hkey : key y = key x := by simpa using List.find?_some hf
    rw [List.Nodup, List.pairwise_map] at hl
    by_cases hyx : y = x
    · rw [hyx]
    · rcases List.mem_iff_getElem.mp hy with ⟨i, hi, rfl⟩
      rcases List.mem_iff_getElem.mp hx with ⟨j, hj, rfl⟩
      rcases Nat.lt_trichotomy i j with hij | rfl | hij
      · exact absurd hkey (List.pairwise_iff_getElem.mp hl i j hi hj hij)
      · exact absurd rfl hyx
      · exact absurd hkey.symm (List.pairwise_iff_getElem.mp hl j i hj hi hij)

theorem WellFormed.classNamed (hw : h.WellFormed) (hc : c ∈ h.classes) :
    h.classNamed c.name = .ok c := by
  rw [Hierarchy.classNamed, find?_reverse_eq_some hw.classNames hc]

theorem WellFormed.ancestry (hw : h.WellFormed) (hc : h.classNamed name = .ok c) :
    ∃ ancestry, h.ancestry name = .ok ancestry := by
  obtain ⟨hmem, rfl⟩ := mem_of_classNamed hc
  exact hw.ancestries c hmem

theorem Descends.classNamed {ancestor : String} (hd : h.Descends ancestor n name) :
    (∃ c, h.classNamed name = .ok c) ∧ ∃ c, h.classNamed ancestor = .ok c := by
  induction hd with
  | refl hd => exact ⟨⟨_, hd⟩, ⟨_, hd⟩⟩
  | step hd _ _ ih => exact ⟨⟨_, hd⟩, ih.2⟩

/-! ### Introducing methods -/

theorem mem_of_declOf {d : MethodDecl} (hd : h.declOf m = .ok d) :
    ∃ name c, m.owner = .ofClass name ∧ h.classNamed name = .ok c ∧ d ∈ c.methods ∧
      d.method = m := by
  unfold declOf at hd
  split at hd
  · cases hd
  · next name hname =>
    obtain ⟨c, hc, hd⟩ := bind_eq_ok.mp hd
    split at hd
    · next d' hf =>
      cases hd
      exact ⟨name, c, hname, hc, List.mem_of_find?_eq_some hf,
        by simpa using List.find?_some hf⟩
    · cases hd

/-- The declaration of a method that its class owns and declares once. -/
theorem declOf_eq_ok {d : MethodDecl} (hc : h.classNamed name = .ok c)
    (howned : d.method.owner = .ofClass name) (honce : (c.methods.map MethodDecl.method).Nodup)
    (hd : d ∈ c.methods) : h.declOf d.method = .ok d := by
  have hf : c.methods.find? (fun d' => d'.method == d.method) = some d := by
    cases hf : c.methods.find? (fun d' => d'.method == d.method) with
    | none =>
      rw [List.find?_eq_none] at hf
      exact absurd (by simp) (hf d hd)
    | some d' =>
      have hm : d'.method = d.method := by simpa using List.find?_some hf
      rw [List.inj_on_of_nodup_map honce (List.mem_of_find?_eq_some hf) hd hm]
  rw [Hierarchy.declOf]
  simp only [howned, hc, ok_bind, hf]
  rfl

theorem WellFormed.declOf (hw : h.WellFormed) {d : MethodDecl} (hc : c ∈ h.classes)
    (hd : d ∈ c.methods) : h.declOf d.method = .ok d :=
  declOf_eq_ok (hw.classNamed hc) (hw.owned c hc d hd) (hw.once c hc) hd

/-- The introducing method is declared, and overrides nothing. -/
theorem declOf_introducing (hi : h.introducing m = .ok base) :
    ∃ d, h.declOf base = .ok d ∧ d.method = base ∧ d.overrides = none := by
  have key : ∀ (steps : Nat) (m : Method), h.introducingTo steps m = .ok base →
      ∃ d, h.declOf base = .ok d ∧ d.method = base ∧ d.overrides = none := by
    intro steps
    induction steps with
    | zero =>
      intro m hi
      simp [introducingTo, Attempt.trap] at hi
    | succ steps ih =>
      intro m hi
      rw [introducingTo] at hi
      obtain ⟨d, hd, hi⟩ := bind_eq_ok.mp hi
      cases ho : d.overrides with
      | some b =>
        simp only [ho] at hi
        exact ih b hi
      | none =>
        simp only [ho] at hi
        cases hi
        obtain ⟨-, -, -, -, -, hm⟩ := mem_of_declOf hd
        exact ⟨d, hm ▸ hd, rfl, ho⟩
  exact key _ m hi

theorem introducing_of_decl {d : MethodDecl} (hd : h.declOf m = .ok d)
    (ho : d.overrides = none) : h.introducing m = .ok m := by
  obtain ⟨-, -, -, -, -, hm⟩ := mem_of_declOf hd
  rw [introducing, introducingTo, hd, ok_bind]
  simp only [ho, hm]
  rfl

/-- A method that introduced an entry is its own introducing method. -/
theorem introducing_introducing (hi : h.introducing m = .ok base) :
    h.introducing base = .ok base := by
  obtain ⟨d, hd, -, ho⟩ := declOf_introducing hi
  exact introducing_of_decl hd ho

/-- Every declared method has an introducing method, declared by its class or by one
above. -/
theorem WellFormed.introducing (hw : h.WellFormed) {d : MethodDecl} (hc : c ∈ h.classes)
    (hd : d ∈ c.methods) :
    ∃ base ancestor n, h.introducing d.method = .ok base ∧ base.owner = .ofClass ancestor ∧
      h.Descends ancestor n c.name := by
  cases ho : d.overrides with
  | none =>
    exact ⟨d.method, c.name, 0, introducing_of_decl (hw.declOf hc hd) ho, hw.owned c hc d hd,
      .refl (hw.classNamed hc)⟩
  | some b =>
    obtain ⟨base, ancestor, n, hi, hb, hn⟩ := hw.overrides c hc d hd (by rw [ho]; rfl)
    exact ⟨base, ancestor, n + 1, hi, hb, hn⟩

/-- Induction from the root of a hierarchy down. -/
theorem WellFormed.induct (hw : h.WellFormed) {P : String → Prop}
    (hP : ∀ name decl, h.classNamed name = .ok decl →
      (∀ parent, decl.superclass = some parent → P parent) → P name)
    (hc : h.classNamed name = .ok c) : P name := by
  have key : ∀ (len : Nat) (name : String) (ancestry : List ClassDecl),
      h.ancestry name = .ok ancestry → ancestry.length ≤ len → P name := by
    intro len
    induction len with
    | zero =>
      intro name ancestry ha hlen
      obtain ⟨decl, -, ⟨-, rfl⟩ | ⟨_, _, -, -, rfl⟩⟩ := ancestry_cases ha
      · simp at hlen
      · simp at hlen
    | succ len ih =>
      intro name ancestry ha hlen
      obtain ⟨decl, hd, hcases⟩ := ancestry_cases ha
      refine hP name decl hd fun parent hp => ?_
      rcases hcases with ⟨hnone, -⟩ | ⟨parent', above, hsome, habove, rfl⟩
      · rw [hp] at hnone
        cases hnone
      · rw [hp, Option.some.injEq] at hsome
        subst hsome
        exact ih parent above habove (by simp at hlen; omega)
  obtain ⟨ancestry, ha⟩ := hw.ancestry hc
  exact key _ name ancestry ha (Nat.le_refl _)

/-! ### Tables -/

theorem map_method_replaceEntry (base : Method) (implementation : String)
    (es : List VTableEntry) :
    (replaceEntry base implementation es).map VTableEntry.method
      = es.map VTableEntry.method := by
  induction es with
  | nil => rfl
  | cons e rest ih =>
    rw [replaceEntry]
    split
    · rfl
    · rw [List.map_cons, ih, List.map_cons]

theorem mem_replaceEntry {base : Method} {implementation : String} {es : List VTableEntry}
    {e : VTableEntry} (he : e ∈ replaceEntry base implementation es) :
    e ∈ es ∨ e = ⟨base, implementation⟩ := by
  induction es with
  | nil => exact Or.inl he
  | cons e' rest ih =>
    rw [replaceEntry] at he
    split at he
    · next hb =>
      rcases List.mem_cons.mp he with rfl | he
      · exact Or.inr (by rw [hb])
      · exact Or.inl (List.mem_cons_of_mem _ he)
    · rcases List.mem_cons.mp he with rfl | he
      · exact Or.inl List.mem_cons_self
      · exact (ih he).imp (List.mem_cons_of_mem _) id

/-- A declaration adds an entry or gives one a new implementation. -/
theorem addDecl_cases {es es' : List VTableEntry} {d : MethodDecl} (ha : h.addDecl es d = .ok es') :
    (d.overrides = none ∧ es' = es ++ [⟨d.method, d.implementation⟩]) ∨
      ∃ base, d.overrides.isSome = true ∧ h.introducing d.method = .ok base ∧
        es' = replaceEntry base d.implementation es := by
  unfold addDecl at ha
  split at ha
  · next ho =>
    cases ha
    exact Or.inl ⟨ho, rfl⟩
  · next ho =>
    obtain ⟨base, hi, ha⟩ := bind_eq_ok.mp ha
    cases ha
    exact Or.inr ⟨base, by rw [ho]; rfl, hi, rfl⟩

/-- The table of a class extends the one that it inherits. -/
theorem vtable_cases (ht : h.vtable name = .ok t) :
    ∃ decl above, h.classNamed name = .ok decl ∧ h.extendTable above decl = .ok t ∧
      ((decl.superclass = none ∧ above = {}) ∨
        ∃ parent, decl.superclass = some parent ∧ h.vtable parent = .ok above) := by
  obtain ⟨ancestry, ha, ht⟩ := bind_eq_ok.mp ht
  obtain ⟨decl, hd, ⟨hs, rfl⟩ | ⟨parent, above, hs, habove, rfl⟩⟩ := ancestry_cases ha
  · rw [List.foldlM_cons] at ht
    obtain ⟨t', ht', ht⟩ := bind_eq_ok.mp ht
    cases ht
    exact ⟨decl, {}, hd, ht', Or.inl ⟨hs, rfl⟩⟩
  · rw [List.foldlM_append] at ht
    obtain ⟨t', ht', ht⟩ := bind_eq_ok.mp ht
    rw [List.foldlM_cons] at ht
    obtain ⟨t'', ht'', ht⟩ := bind_eq_ok.mp ht
    cases ht
    refine ⟨decl, t', hd, ht'', Or.inr ⟨parent, hs, ?_⟩⟩
    rw [vtable, habove, ok_bind, ht']

theorem extendTable_eq_ok (ht : h.extendTable t decl = .ok t') :
    decl.methods.foldlM h.addDecl t.entries = .ok t'.entries ∧
      t'.ownStart = tableHeaderWords + t.entries.length := by
  obtain ⟨entries, he, ht⟩ := bind_eq_ok.mp ht
  cases ht
  exact ⟨he, rfl⟩

/-- The inherited entries stand first, in their order. -/
theorem prefix_of_extendTable (ht : h.extendTable t decl = .ok t') : t.methods <+: t'.methods := by
  refine foldlM_inv (P := fun es => t.methods <+: es.map VTableEntry.method)
    (extendTable_eq_ok ht).1 (List.prefix_refl _) ?_
  intro es d es' _ hes ha
  rcases addDecl_cases ha with ⟨-, rfl⟩ | ⟨base, -, -, rfl⟩
  · rw [List.map_append]
    exact hes.trans (List.prefix_append _ _)
  · rwa [map_method_replaceEntry]

/-- Every class of declarations that fit together has a table. -/
theorem WellFormed.vtable (hw : h.WellFormed) (hc : h.classNamed name = .ok c) :
    ∃ t, h.vtable name = .ok t := by
  obtain ⟨ancestry, ha⟩ := hw.ancestry hc
  have hmem : ∀ c ∈ ancestry, c ∈ h.classes := fun c hc =>
    (mem_of_classNamed (classNamed_of_mem_ancestry ha hc)).1
  obtain ⟨t, ht⟩ := foldlM_ok (f := h.extendTable) (l := ancestry) {} (by
    intro t c hc
    obtain ⟨es, hes⟩ := foldlM_ok (f := h.addDecl) (l := c.methods) t.entries (by
      intro es d hd
      obtain ⟨base, -, -, hi, -⟩ := hw.introducing (hmem c hc) hd
      unfold addDecl
      split
      · exact ⟨_, rfl⟩
      · exact ⟨_, by rw [hi]; rfl⟩)
    exact ⟨_, by rw [extendTable, hes]; rfl⟩)
  exact ⟨t, by rw [Hierarchy.vtable, ha, ok_bind, ht]⟩

/-- Down the hierarchy, the entries of an ancestor stand first and in their order. -/
theorem Descends.prefix_methods {ancestor : String} (hd : h.Descends ancestor n name)
    (ht : h.vtable name = .ok t) :
    ∃ t', h.vtable ancestor = .ok t' ∧ t'.methods <+: t.methods := by
  induction hd generalizing t with
  | refl => exact ⟨t, ht, List.prefix_refl _⟩
  | step hd hp _ ih =>
    obtain ⟨decl, above, hd', hext, ⟨hnone, -⟩ | ⟨parent, hsome, habove⟩⟩ := vtable_cases ht
    · rw [hd, Except.ok.injEq] at hd'
      subst hd'
      rw [hp] at hnone
      cases hnone
    · rw [hd, Except.ok.injEq] at hd'
      subst hd'
      rw [hp, Option.some.injEq] at hsome
      subst hsome
      obtain ⟨t', ht', hpre⟩ := ih habove
      exact ⟨t', ht', hpre.trans (prefix_of_extendTable hext)⟩

/-- What holds of every entry that a declaration of the module puts into a table holds
of every entry of every table. -/
theorem WellFormed.forall_entries (hw : h.WellFormed) {P : VTableEntry → Prop}
    (hP : ∀ c ∈ h.classes, ∀ d ∈ c.methods, ∀ base, h.introducing d.method = .ok base →
      P ⟨base, d.implementation⟩)
    (ht : h.vtable name = .ok t) : ∀ e ∈ t.entries, P e := by
  obtain ⟨decl, -, hd, -⟩ := vtable_cases ht
  refine hw.induct (P := fun name => ∀ t, h.vtable name = .ok t → ∀ e ∈ t.entries, P e) ?_ hd t ht
  intro name decl hd ih t ht
  obtain ⟨decl', above, hd', hext, hcases⟩ := vtable_cases ht
  rw [hd, Except.ok.injEq] at hd'
  subst hd'
  have habove : ∀ e ∈ above.entries, P e := by
    rcases hcases with ⟨-, rfl⟩ | ⟨parent, hs, habove⟩
    · simp
    · exact ih parent hs above habove
  refine foldlM_inv (P := fun es => ∀ e ∈ es, P e) (extendTable_eq_ok hext).1 habove ?_
  intro es d es' hd' hes ha e he
  have hmem := (mem_of_classNamed hd).1
  rcases addDecl_cases ha with ⟨ho, rfl⟩ | ⟨base, -, hi, rfl⟩
  · rcases List.mem_append.mp he with he | he
    · exact hes e he
    · rw [List.mem_singleton] at he
      exact he ▸ hP decl hmem d hd' _ (introducing_of_decl (hw.declOf hmem hd') ho)
  · rcases mem_replaceEntry he with he | rfl
    · exact hes e he
    · exact hP decl hmem d hd' base hi

/-- Classes own the methods that they declare. -/
def Owned (h : Hierarchy) : Prop :=
  ∀ c ∈ h.classes, ∀ d ∈ c.methods, d.method.owner = .ofClass c.name

instance (h : Hierarchy) : Decidable h.Owned :=
  inferInstanceAs (Decidable (∀ c ∈ h.classes, ∀ d ∈ c.methods, d.method.owner = .ofClass c.name))

/-- Where classes own their methods, the entries of a table come from the class and its
ancestors. -/
theorem owner_of_mem_vtable (howned : h.Owned) (ht : h.vtable name = .ok t) (hm : m ∈ t.methods) :
    ∃ ancestor n, m.owner = .ofClass ancestor ∧ h.Descends ancestor n name := by
  obtain ⟨ancestry, ha, ht⟩ := bind_eq_ok.mp ht
  have hfrom : ∀ m ∈ t.methods, ∃ c ∈ ancestry, m.owner = .ofClass c.name := by
    refine foldlM_inv (P := fun t => ∀ m ∈ t.methods, ∃ c ∈ ancestry, m.owner = .ofClass c.name)
      ht (by simp [VTable.methods]) ?_
    intro above c t' hc habove hext
    refine foldlM_inv (P := fun es => ∀ m ∈ es.map VTableEntry.method,
      ∃ c ∈ ancestry, m.owner = .ofClass c.name) (extendTable_eq_ok hext).1 habove ?_
    intro es d es' hd hes hadd m hm
    rcases addDecl_cases hadd with ⟨-, rfl⟩ | ⟨base, -, -, rfl⟩
    · rw [List.map_append, List.mem_append] at hm
      rcases hm with hm | hm
      · exact hes m hm
      · rw [List.map_singleton, List.mem_singleton] at hm
        have hmem := (mem_of_classNamed (classNamed_of_mem_ancestry ha hc)).1
        exact ⟨c, hc, hm ▸ howned c hmem d hd⟩
    · rw [map_method_replaceEntry] at hm
      exact hes m hm
  obtain ⟨c, hc, hown⟩ := hfrom m hm
  obtain ⟨n, hn⟩ := descends_of_mem_ancestry ha hc
  exact ⟨c.name, n, hown, hn⟩

theorem WellFormed.owner_of_mem (hw : h.WellFormed) (ht : h.vtable name = .ok t)
    (hm : m ∈ t.methods) : ∃ ancestor n, m.owner = .ofClass ancestor ∧ h.Descends ancestor n name :=
  owner_of_mem_vtable hw.owned ht hm

/-- Where classes own their methods, an entry that a class introduced is in the own part of
its table: an inherited entry would have been introduced above the class itself. -/
theorem ownStart_le (howned : h.Owned) (ht : h.vtable name = .ok t)
    (howner : base.owner = .ofClass name) {k : Nat}
    (hk : t.entries.findIdx? (·.method == base) = some k) :
    t.ownStart ≤ k + tableHeaderWords := by
  obtain ⟨decl, above, hdecl, hext, hcases⟩ := vtable_cases ht
  obtain ⟨hlt, hbase, -⟩ := List.findIdx?_eq_some_iff_getElem.mp hk
  rw [(extendTable_eq_ok hext).2]
  by_cases hlow : k < above.entries.length
  · exfalso
    have hin : base ∈ above.methods := by
      have hk' : above.methods[k]? = some (above.entries[k]).method := by
        simp [VTable.methods, hlow]
      have ht' := getElem?_of_prefix (prefix_of_extendTable hext) hk'
      rw [VTable.methods, List.getElem?_map, List.getElem?_eq_getElem hlt, Option.map_some,
        Option.some.injEq, beq_iff_eq.mp hbase] at ht'
      rw [ht']
      exact List.mem_of_getElem? hk'
    rcases hcases with ⟨-, rfl⟩ | ⟨parent, hparent, habove⟩
    · simp [VTable.methods] at hin
    · obtain ⟨ancestor, n, hancestor, hn⟩ := owner_of_mem_vtable howned habove hin
      rw [howner, Owner.ofClass.injEq] at hancestor
      subst hancestor
      obtain ⟨ancestry, ha, -⟩ := bind_eq_ok.mp ht
      exact (Descends.step hdecl hparent hn).not_self ha
  · omega

/-! ### Slots -/

/-- An entry is in the own part of the table of the class that introduced it, and the
slot of every method that uses it says where. -/
theorem WellFormed.slot (hw : h.WellFormed) (hi : h.introducing m = .ok base) :
    ∃ owner t k resilient, base.owner = .ofClass owner ∧ h.vtable owner = .ok t ∧
      t.entries.findIdx? (·.method == base) = some k ∧
      t.ownStart ≤ k + tableHeaderWords ∧
      h.slot m = .ok (if resilient = true
        then .resilient (h.boundsSymbol owner) (k + tableHeaderWords - t.ownStart)
        else .fixed (k + tableHeaderWords)) := by
  obtain ⟨d, hd, hbase, ho⟩ := declOf_introducing hi
  obtain ⟨owner, c, howner, hc, hdc, -⟩ := mem_of_declOf hd
  obtain ⟨t, ht⟩ := hw.vtable hc
  obtain ⟨ancestry, hanc⟩ := hw.ancestry hc
  obtain ⟨decl, above, hdecl, hext, hcases⟩ := vtable_cases ht
  rw [hc, Except.ok.injEq] at hdecl
  subst hdecl
  -- the declaration of `base` adds its entry
  have hmem : base ∈ t.methods := by
    have hadd : ∀ (ds : List MethodDecl) (es es' : List VTableEntry),
        ds.foldlM h.addDecl es = .ok es' → d ∈ ds → base ∈ es'.map VTableEntry.method := by
      intro ds
      induction ds with
      | nil => simp
      | cons d' ds ih =>
        intro es es' hf hmem
        rw [List.foldlM_cons] at hf
        obtain ⟨es₁, h₁, hrest⟩ := bind_eq_ok.mp hf
        rcases List.mem_cons.mp hmem with rfl | hmem
        · have hone : base ∈ es₁.map VTableEntry.method := by
            rcases addDecl_cases h₁ with ⟨-, rfl⟩ | ⟨_, hsome, -, -⟩
            · simp [hbase]
            · rw [ho] at hsome
              cases hsome
          refine foldlM_inv (P := fun es => base ∈ es.map VTableEntry.method) hrest hone ?_
          intro es d es' _ hes ha
          rcases addDecl_cases ha with ⟨-, rfl⟩ | ⟨_, -, -, rfl⟩
          · rw [List.map_append, List.mem_append]
            exact Or.inl hes
          · rwa [map_method_replaceEntry]
        · exact ih es₁ es' hrest hmem
    exact hadd _ _ _ (extendTable_eq_ok hext).1 hdc
  cases hk : t.entries.findIdx? (·.method == base) with
  | none =>
    rw [List.findIdx?_eq_none_iff] at hk
    obtain ⟨e, he, heq⟩ := List.mem_map.mp hmem
    exact absurd heq (by simpa using hk e he)
  | some k =>
    have hstart := ownStart_le hw.owned ht howner hk
    refine ⟨owner, t, k, ancestry.any ClassDecl.resilient, howner, ht, hk, hstart, ?_⟩
    have hsub : Size.sub? (k + tableHeaderWords) t.ownStart
        = some (k + tableHeaderWords - t.ownStart) := by
      rw [Size.sub?_eq_some_iff]
      omega
    rw [Hierarchy.slot, hi, ok_bind, howner]
    simp only [ht, ok_bind, hk, isResilient, hanc, pure_eq, subSize, hsub, Attempt.fits]
    split <;> rfl

/-- The entry of a method has one place in the tables of all classes below the one
that introduced it. -/
theorem Descends.entry {owner : String} (hd : h.Descends owner n name) (ht : h.vtable owner = .ok t)
    {k : Nat} (hk : t.entries.findIdx? (·.method == base) = some k)
    (ht' : h.vtable name = .ok t') :
    ∃ e, t'.entries[k]? = some e ∧ e.method = base ∧
      t'.entries.findIdx? (·.method == base) = some k ∧
      t'.entries.find? (·.method == base) = some e := by
  obtain ⟨t₀, ht₀, hpre⟩ := hd.prefix_methods ht'
  rw [ht, Except.ok.injEq] at ht₀
  subst ht₀
  obtain ⟨hlt, hbase, hfirst⟩ := List.findIdx?_eq_some_iff_getElem.mp hk
  have hsame : ∀ j (hj : j < t.entries.length),
      ∃ e, t'.entries[j]? = some e ∧ e.method = t.entries[j].method := by
    intro j hj
    have hj' : t.methods[j]? = some t.entries[j].method := by
      simp [VTable.methods, hj]
    have := getElem?_of_prefix hpre hj'
    rwa [VTable.methods, List.getElem?_map, Option.map_eq_some_iff] at this
  obtain ⟨e, he, hme⟩ := hsame k hlt
  obtain ⟨hlt', hek⟩ := List.getElem?_eq_some_iff.mp he
  have hmethod : e.method = base := by
    rw [hme]
    simpa using hbase
  have hfirst' : ∀ j (hj : j < k), ¬ (t'.entries[j].method == base) = true := by
    intro j hj
    obtain ⟨e', he', hme'⟩ := hsame j (by omega)
    obtain ⟨hj', he'j⟩ := List.getElem?_eq_some_iff.mp he'
    rw [he'j, hme']
    exact hfirst j hj
  refine ⟨e, he, hmethod, ?_, ?_⟩
  · exact List.findIdx?_eq_some_iff_getElem.mpr ⟨hlt', by simp [hek, hmethod], hfirst'⟩
  · rw [List.find?_eq_some_iff_getElem]
    exact ⟨by simp [hmethod], k, hlt', hek, fun j hj => by simpa using hfirst' j hj⟩

/-- The implementation that the table of a class has for a method. -/
def selected (h : Hierarchy) (className : String) (m : Method) : Attempt String := do
  let base ← h.introducing m
  let table ← h.vtable className
  match table.entries.find? (·.method == base) with
  | some e => return e.implementation
  | none => Attempt.abi (.unknownMethod className m.selector)

theorem selected_eq_ok {e : VTableEntry} (hi : h.introducing m = .ok base)
    (ht : h.vtable name = .ok t) (he : t.entries.find? (·.method == base) = some e) :
    h.selected name m = .ok e.implementation := by
  rw [selected, hi, ok_bind, ht, ok_bind, he]
  rfl

theorem isWitness_of_introducing (hi : h.introducing m = .ok base) : m.isWitness = false := by
  rw [introducing, introducingTo] at hi
  obtain ⟨d, hd, -⟩ := bind_eq_ok.mp hi
  obtain ⟨_, _, ho, -⟩ := mem_of_declOf hd
  rw [Method.isWitness, ho]
  rfl

/-- A method's entries are signed like those of the method that introduced them. -/
theorem signing_introducing (hi : h.introducing m = .ok base) (p : Pool) (key : Key) :
    h.signing p key m = h.signing p key base := by
  have hbase := introducing_introducing hi
  simp only [signing, methodDiscriminator, isWitness_of_introducing hi,
    isWitness_of_introducing hbase, Bool.false_eq_true, if_false, hi, hbase]

theorem signing_eq (hi : h.introducing base = .ok base) (p : Pool) (key : Key) :
    h.signing p key base
      = (do return ⟨key, discriminator (← base.descriptorSymbol p)⟩ : Attempt Signing) := by
  simp only [signing, methodDiscriminator, isWitness_of_introducing hi, Bool.false_eq_true,
    if_false, hi, ok_bind]
  cases base.descriptorSymbol p <;> rfl

/-! ### Overridden entries -/

/-- Some class of the module overrides the entry that `m` introduced. -/
def Overridden (h : Hierarchy) (m : Method) : Prop :=
  ∃ c ∈ h.classes, ∃ d ∈ c.methods, d.overrides.isSome = true ∧ h.introducing d.method = .ok m

/-- Where every override has an introducing method, the search for an override finds
one exactly if there is one. -/
theorem WellFormed.isOverridden (hw : h.WellFormed) (m : Method) :
    ∃ b, h.isOverridden m = .ok b ∧ (b = true ↔ h.Overridden m) := by
  have key : ∀ ds : List MethodDecl, (∀ d ∈ ds, ∃ base, h.introducing d.method = .ok base) →
      ∃ b, h.anyOverrides m ds = .ok b ∧
        (b = true ↔ ∃ d ∈ ds, d.overrides.isSome = true ∧ h.introducing d.method = .ok m) := by
    intro ds
    induction ds with
    | nil => exact fun _ => ⟨false, rfl, by simp⟩
    | cons d rest ih =>
      intro hds
      obtain ⟨b, hb, hiff⟩ := ih fun d' hd' => hds d' (List.mem_cons_of_mem _ hd')
      obtain ⟨base, hbase⟩ := hds d List.mem_cons_self
      rw [anyOverrides]
      by_cases ho : d.overrides.isSome = true
      · rw [if_pos ho, hbase, ok_bind]
        by_cases heq : base = m
        · subst heq
          exact ⟨true, by rw [if_pos rfl]; rfl, by simp [ho, hbase]⟩
        · refine ⟨b, by rw [if_neg heq, hb], ?_⟩
          rw [hiff]
          simp [ho, hbase, heq]
      · refine ⟨b, by rw [if_neg ho, hb], ?_⟩
        rw [hiff]
        simp [ho]
  obtain ⟨b, hb, hiff⟩ := key (h.classes.flatMap (·.methods)) (by
    intro d hd
    obtain ⟨c, hc, hd⟩ := List.mem_flatMap.mp hd
    obtain ⟨base, -, -, hi, -⟩ := hw.introducing hc hd
    exact ⟨base, hi⟩)
  refine ⟨b, hb, hiff.trans ?_⟩
  constructor
  · rintro ⟨d, hd, ho, hi⟩
    obtain ⟨c, hc, hd⟩ := List.mem_flatMap.mp hd
    exact ⟨c, hc, d, hd, ho, hi⟩
  · rintro ⟨c, hc, d, hd, ho, hi⟩
    exact ⟨d, List.mem_flatMap.mpr ⟨c, hc, hd⟩, ho, hi⟩

/-- An entry that nobody overrides keeps the implementation that it was declared with,
in the table of every class. -/
theorem WellFormed.keeps_implementation (hw : h.WellFormed) {d : MethodDecl} (hc : c ∈ h.classes)
    (hd : d ∈ c.methods) (hno : ¬ h.Overridden d.method) (ht : h.vtable name = .ok t) :
    ∀ e ∈ t.entries, e.method = d.method → e.implementation = d.implementation := by
  refine hw.forall_entries (P := fun e => e.method = d.method → e.implementation = d.implementation)
    ?_ ht
  intro c' hc' d' hd' base hi heq
  simp only at heq ⊢
  subst heq
  cases ho : d'.overrides with
  | some b => exact absurd ⟨c', hc', d', hd', by rw [ho]; rfl, hi⟩ hno
  | none =>
    -- a second declaration that introduces the entry is the same one
    have hself := introducing_of_decl (hw.declOf hc' hd') ho
    rw [hi, Except.ok.injEq] at hself
    have h₁ := hw.declOf hc' hd'
    rw [← hself, hw.declOf hc hd, Except.ok.injEq] at h₁
    rw [h₁]

end Hierarchy

end Dispatch
