import Dispatch.Proofs.Mangling

/-!
# Substitution in types

Types are kept once each, so an id is as good as the type written out, and replacing generic
parameters in a type of a pool is replacing them in the type written out.  On types written
out the laws of substitution are plain; they carry over to ids, although a substitution adds
types to the pool as it goes, since what an id stands for does not change.

## Main definitions

* `Ty.generics`, `Ty.replace` — the generic parameters of a type, and others in their place.
* `Pool.Grows p q` — `q` is `p` after more types have been interned, elements first.
* `Pool.Proper` — every type is there once, and comes after its elements.
* `Subst.Denotes` — the types that a substitution puts in the place of parameters.
* `Pool.Makes` — a step that ends with the type in which parameters are replaced.
* `Subst.andThen` — one substitution after the other, as a single one.
* `Pool.Substitutes` — the laws of substitution in a pool.

## Main results

* `Ty.replace_replace` — the law on types written out.
* `Pool.Proper.makes_apply` — substitution in a pool is substitution in types written out.
* `Pool.Grows.substitutes` — the laws in every pool.
-/

namespace Dispatch

open Attempt

/-- A list of attempts succeeds if each of them does. -/
theorem Attempt.mapM_eq_ok {α β : Type} {f : α → Attempt β} {l : List α} {ys : List β} :
    l.mapM f = .ok ys ↔ l.map f = ys.map .ok := by
  induction l generalizing ys with
  | nil => simp [pure, Except.pure, eq_comm]
  | cons x l ih =>
    rw [mapM_cons_eq_ok, List.map_cons]
    constructor
    · rintro ⟨y, rest, hy, hrest, rfl⟩
      rw [hy, ih.mp hrest, List.map_cons]
    · intro h
      cases ys with
      | nil => cases h
      | cons y rest =>
        obtain ⟨hy, hrest⟩ := List.cons.inj h
        exact ⟨y, rest, hy, ih.mpr hrest, rfl⟩

/-! ### Types written out -/

namespace Ty

/-- Induction over types written out: a tuple comes after its elements. -/
theorem induct {P : Ty → Prop} (unit : P .unit) (scalar : ∀ kind, P (.scalar kind))
    (tuple : ∀ ts, (∀ t ∈ ts, P t) → P (.tuple ts)) (object : ∀ name, P (.object name))
    (metatype : ∀ name, P (.metatype name)) (protocolSelf : ∀ name, P (.protocolSelf name))
    (generic : ∀ index, P (.generic index)) : ∀ t, P t
  | .unit => unit
  | .scalar kind => scalar kind
  | .tuple ts => tuple ts fun t _ =>
    induct unit scalar tuple object metatype protocolSelf generic t
  | .object name => object name
  | .metatype name => metatype name
  | .protocolSelf name => protocolSelf name
  | .generic index => generic index

mutual

/-- The indices of the generic parameters in the type, in field order. -/
def generics : Ty → List Nat
  | .unit => []
  | .scalar _ => []
  | .tuple elements => genericsOf elements
  | .object _ => []
  | .metatype _ => []
  | .protocolSelf _ => []
  | .generic index => [index]

/-- The indices of the generic parameters in the types. -/
def genericsOf : List Ty → List Nat
  | [] => []
  | t :: rest => t.generics ++ genericsOf rest

end

mutual

/-- The type with another type in the place of each generic parameter. -/
def replace (f : Nat → Ty) : Ty → Ty
  | .unit => .unit
  | .scalar kind => .scalar kind
  | .tuple elements => .tuple (replaceAll f elements)
  | .object className => .object className
  | .metatype className => .metatype className
  | .protocolSelf protocol => .protocolSelf protocol
  | .generic index => f index

/-- The types with another type in the place of each generic parameter. -/
def replaceAll (f : Nat → Ty) : List Ty → List Ty
  | [] => []
  | t :: rest => t.replace f :: replaceAll f rest

end

variable {f g : Nat → Ty} {t : Ty} {ts : List Ty} {count index : Nat}

theorem genericsOf_eq_flatMap (ts : List Ty) : genericsOf ts = ts.flatMap generics := by
  induction ts with
  | nil => rfl
  | cons t rest ih => rw [genericsOf, ih, List.flatMap_cons]

theorem replaceAll_eq_map (f : Nat → Ty) (ts : List Ty) :
    replaceAll f ts = ts.map (replace f) := by
  induction ts with
  | nil => rfl
  | cons t rest ih => rw [replaceAll, ih, List.map_cons]

@[simp] theorem generics_tuple (ts : List Ty) : (tuple ts).generics = ts.flatMap generics := by
  rw [generics, genericsOf_eq_flatMap]

@[simp] theorem replace_tuple (f : Nat → Ty) (ts : List Ty) :
    (tuple ts).replace f = .tuple (ts.map (replace f)) := by
  rw [replace, replaceAll_eq_map]

theorem mem_generics_of_maxGenericOf (h : ∀ t ∈ ts, ∀ index ∈ t.maxGeneric, index ∈ t.generics) :
    ∀ index ∈ maxGenericOf ts, index ∈ ts.flatMap generics := by
  induction ts with
  | nil =>
    intro index hindex
    cases hindex
  | cons t rest ih =>
    intro index hindex
    have hrest := ih fun t' ht' => h t' (List.mem_cons_of_mem _ ht')
    have hfirst := h t List.mem_cons_self
    rw [maxGenericOf] at hindex
    rw [List.flatMap_cons, List.mem_append]
    cases ht : t.maxGeneric with
    | none =>
      rw [ht] at hindex
      exact .inr (hrest index hindex)
    | some a =>
      cases hr : maxGenericOf rest with
      | none =>
        rw [ht, hr] at hindex
        exact .inl (hfirst index (ht ▸ hindex))
      | some b =>
        rw [ht, hr] at hindex
        cases hindex
        rcases Nat.le_total a b with hle | hle
        · rw [Nat.max_eq_right hle]
          exact .inr (hrest b hr)
        · rw [Nat.max_eq_left hle]
          exact .inl (hfirst a ht)

/-- The highest index is one of the indices. -/
theorem mem_generics_of_maxGeneric : ∀ index ∈ t.maxGeneric, index ∈ t.generics := by
  induction t using induct with
  | tuple ts ih =>
    rw [maxGeneric, generics_tuple]
    exact mem_generics_of_maxGenericOf ih
  | generic i =>
    intro index hindex
    cases hindex
    exact List.mem_singleton_self i
  | _ =>
    intro index hindex
    cases hindex

/-- No index is above the highest one. -/
theorem le_maxGeneric (h : index ∈ t.generics) : ∃ highest ∈ t.maxGeneric, index ≤ highest := by
  induction t using induct with
  | tuple ts ih =>
    rw [generics_tuple, List.mem_flatMap] at h
    obtain ⟨t, ht, h⟩ := h
    obtain ⟨highest, hhighest, hle⟩ := ih t ht h
    obtain ⟨top, htop, hle'⟩ := le_maxGenericOf ht hhighest
    exact ⟨top, htop, Nat.le_trans hle hle'⟩
  | generic i =>
    obtain rfl := List.mem_singleton.mp h
    exact ⟨index, rfl, Nat.le_refl index⟩
  | _ => cases h

theorem genericsBelow_iff : t.GenericsBelow count ↔ ∀ index ∈ t.generics, index < count := by
  constructor
  · intro h index hindex
    obtain ⟨highest, hhighest, hle⟩ := le_maxGeneric hindex
    exact Nat.lt_of_le_of_lt hle (h highest hhighest)
  · intro h index hindex
    exact h index (mem_generics_of_maxGeneric index hindex)

/-! ### The laws on types written out -/

/-- Replacing twice is replacing once, with the replacements of the first time replaced. -/
theorem replace_replace (f g : Nat → Ty) (t : Ty) :
    (t.replace f).replace g = t.replace fun index => (f index).replace g := by
  induction t using induct with
  | tuple ts ih =>
    rw [replace_tuple, replace_tuple, replace_tuple, List.map_map, tuple.injEq]
    exact List.map_congr_left ih
  | _ => rfl

/-- The parameters of a type in which parameters are replaced are those of the
replacements. -/
theorem generics_replace (f : Nat → Ty) (t : Ty) :
    (t.replace f).generics = t.generics.flatMap fun index => (f index).generics := by
  induction t using induct with
  | tuple ts ih =>
    rw [replace_tuple, generics_tuple, generics_tuple, List.flatMap_map, List.flatMap_assoc,
      List.flatMap_def, List.flatMap_def, List.map_congr_left ih]
  | generic index => rw [replace, generics, List.flatMap_singleton]
  | _ => rfl

/-- The fault of a substitution of the first `count` parameters: it stops at the first
parameter of the type that is not one of them. -/
def Lacks (t : Ty) (count : Nat) (fault : Fault) : Prop :=
  ∃ index, t.generics.find? (count ≤ ·) = some index ∧ fault = .trap (.noReplacement index count)

theorem Lacks.not_below {fault : Fault} (h : t.Lacks count fault) : ¬ t.GenericsBelow count := by
  obtain ⟨index, hindex, -⟩ := h
  intro hbelow
  have hle := List.find?_some hindex
  have hlt := genericsBelow_iff.mp hbelow index (List.mem_of_find?_eq_some hindex)
  simp only [decide_eq_true_iff] at hle
  omega

/-- The first element without a replacement is the one that the tuple fails for. -/
theorem lacks_tuple {before rest : List Ty} {fault : Fault}
    (hbefore : ∀ t ∈ before, t.GenericsBelow count) (ht : t.Lacks count fault) :
    (tuple (before ++ t :: rest)).Lacks count fault := by
  obtain ⟨index, hindex, rfl⟩ := ht
  refine ⟨index, ?_, rfl⟩
  have hnone : (before.flatMap generics).find? (count ≤ ·) = none := by
    rw [List.find?_eq_none]
    intro i hi
    obtain ⟨t, ht, hi⟩ := List.mem_flatMap.mp hi
    have hlt := genericsBelow_iff.mp (hbefore t ht) i hi
    simp only [decide_eq_true_iff]
    omega
  rw [generics_tuple, List.flatMap_append, List.flatMap_cons, List.find?_append, hnone,
    Option.none_or, List.find?_append, hindex, Option.some_or]

end Ty

/-! ### Pools that grow -/

/-- The types that a shape refers to. -/
def Shape.elements : Shape → List TypeId
  | .tuple elements => elements
  | .unit => []
  | .scalar _ => []
  | .object _ => []
  | .metatype _ => []
  | .protocolSelf _ => []
  | .generic _ => []

namespace Pool

variable {p q r : Pool} {id id' : TypeId} {t : Ty} {s : Shape}

/-- More types have been interned, each after its elements. -/
inductive Grows (p : Pool) : Pool → Prop
  | refl : Grows p p
  | intern {q r : Pool} {s : Shape} {id : TypeId} (h : Grows p q)
    (hs : ∀ e ∈ s.elements, e < q.size) (hr : Pool.intern s q = .ok id r) : Grows p r

theorem Grows.trans (h : p.Grows q) (h' : q.Grows r) : p.Grows r := by
  induction h' with
  | refl => exact h
  | intern _ hs hr ih => exact .intern ih hs hr

theorem extends_of_intern (h : intern s p = .ok id q) : p.Extends q := by
  obtain ⟨_, -, hrun⟩ | ⟨_, hrun⟩ := intern_cases p s
  · rw [hrun] at h
    cases h
    exact .refl p
  · rw [hrun] at h
    cases h
    exact List.prefix_append _ _

theorem Grows.extends (h : p.Grows q) : p.Extends q := by
  induction h with
  | refl => exact .refl p
  | intern _ _ hr ih => exact ih.trans (extends_of_intern hr)

/-- Every type is there once, and comes after the types that it refers to. -/
structure Proper (p : Pool) : Prop where
  distinct : p.Distinct
  elements_lt : ∀ {id : TypeId} {s : Shape}, p.shapes[id]? = some s → ∀ e ∈ s.elements, e < id

theorem proper_new : Pool.new.Proper where
  distinct := by
    unfold Distinct
    decide
  elements_lt {id s} hs e he := by
    have hleaves : ∀ s ∈ Pool.new.shapes, s.elements = [] := by decide
    rw [hleaves s (List.mem_of_getElem? hs)] at he
    cases he

theorem Proper.intern (hp : p.Proper) (hs : ∀ e ∈ s.elements, e < p.size)
    (h : Pool.intern s p = .ok id q) : q.Proper where
  distinct := ((ends_intern hp.distinct s).ok h).2.1
  elements_lt {i s'} hs' e he := by
    obtain ⟨_, -, hrun⟩ | ⟨_, hrun⟩ := intern_cases p s
    · rw [hrun] at h
      cases h
      exact hp.elements_lt hs' e he
    · rw [hrun] at h
      cases h
      rw [shapes_add] at hs'
      rcases Nat.lt_or_ge i p.shapes.length with hlt | hge
      · rw [List.getElem?_append_left hlt] at hs'
        exact hp.elements_lt hs' e he
      · rw [List.getElem?_append_right hge] at hs'
        obtain rfl := List.mem_singleton.mp (List.mem_of_getElem? hs')
        exact Nat.lt_of_lt_of_le (hs e he) hge

theorem Grows.proper (h : p.Grows q) (hp : p.Proper) : q.Proper := by
  induction h with
  | refl => exact hp
  | intern _ hs hr ih => exact ih.intern hs hr

/-- Interning a shape of known types makes the pool grow and answers with a type of that
shape. -/
theorem Proper.grows_intern (hp : p.Proper) (hs : ∀ e ∈ s.elements, e < p.size) :
    Step.Ends (Pool.intern s) p (fun id q => p.Grows q ∧ q.shapes[id]? = some s)
      fun _ _ => False :=
  (ends_intern hp.distinct s).imp_run (fun _ _ hrun h => ⟨.intern .refl hs hrun, h.2.2⟩)
    fun _ _ _ h => h

/-! ### What ids stand for -/

theorem lt_size_of_tree (h : p.tree id = .ok t) : id < p.size := by
  obtain ⟨elements, hs, -⟩ := shape_of_treeTo h
  exact (List.getElem?_eq_some_iff.mp (shape_eq_ok.mp hs)).1

/-- A type can be written out to any depth above its id. -/
theorem Proper.exists_treeTo (hp : p.Proper) :
    ∀ {depth : Nat} {id : TypeId}, id < p.size → id < depth → ∃ t, p.treeTo depth id = .ok t := by
  intro depth
  induction depth with
  | zero => intro id _ hdepth; exact absurd hdepth (Nat.not_lt_zero id)
  | succ depth ih =>
    intro id hid hdepth
    have hs : p.shapes[id]? = some p.shapes[id] := List.getElem?_eq_getElem hid
    rw [treeTo, shape_eq_ok.mpr hs, ok_bind]
    cases hshape : p.shapes[id] with
    | tuple elements =>
      rw [hshape] at hs
      have hlt : ∀ e ∈ elements, e < id := hp.elements_lt hs
      obtain ⟨ts, hts⟩ := exists_mapM_ok fun e he =>
        ih (Nat.lt_trans (hlt e he) hid)
          (Nat.lt_of_lt_of_le (hlt e he) (Nat.le_of_lt_succ hdepth))
      exact ⟨.tuple ts, by simp only [hts, ok_bind, pure_eq]⟩
    | _ => exact ⟨_, rfl⟩

theorem Proper.exists_tree (hp : p.Proper) (hid : id < p.size) : ∃ t, p.tree id = .ok t :=
  hp.exists_treeTo hid (Nat.lt_succ_of_lt hid)

theorem Proper.treeTo_eq (hp : p.Proper) {depth : Nat} (hid : id < p.size) (hdepth : id < depth) :
    p.treeTo depth id = p.tree id := by
  obtain ⟨t, ht⟩ := hp.exists_treeTo hid (Nat.lt_succ_self id)
  have hmax : p.treeTo p.maxDepth id = .ok t :=
    Extends.treeTo (.refl p) (Nat.le_succ_of_le hid) ht
  rw [tree, hmax]
  exact Extends.treeTo (.refl p) hdepth ht

/-- A tuple is written out element by element. -/
theorem Proper.tree_tuple (hp : p.Proper) {elements : List TypeId}
    (hs : p.shapes[id]? = some (.tuple elements)) :
    p.tree id = Ty.tuple <$> elements.mapM p.tree := by
  have hid : id < p.size := (List.getElem?_eq_some_iff.mp hs).1
  have hlt : ∀ e ∈ elements, e < id := hp.elements_lt hs
  have helements : elements.mapM (p.treeTo p.size) = elements.mapM p.tree :=
    mapM_congr fun e he => hp.treeTo_eq (Nat.lt_trans (hlt e he) hid) (Nat.lt_trans (hlt e he) hid)
  rw [tree, maxDepth, treeTo, shape_eq_ok.mpr hs, ok_bind]
  simp only [helements]
  rfl

theorem Proper.exists_elements (hp : p.Proper) {elements : List TypeId}
    (hs : p.shapes[id]? = some (.tuple elements)) (ht : p.tree id = .ok t) :
    ∃ ts, t = .tuple ts ∧ elements.mapM p.tree = .ok ts := by
  rw [hp.tree_tuple hs, map_eq_ok] at ht
  obtain ⟨ts, hts, rfl⟩ := ht
  exact ⟨ts, rfl, hts⟩

/-- Equal ids and equal types are the same thing. -/
theorem Proper.tree_eq_iff (hp : p.Proper) (hid : id < p.size) :
    p.tree id = p.tree id' ↔ id = id' := by
  constructor
  · intro heq
    obtain ⟨t, ht⟩ := hp.exists_tree hid
    exact tree_inj hp.distinct ht (heq ▸ ht)
  · rintro rfl
    rfl

/-! ### Substitution in a pool -/

/-- The step makes the pool grow.  It ends with the type in which every parameter is
replaced, if all of them are among the first `count`; else it fails at the first one that is
not. -/
def Makes (p : Pool) (x : Step Pool TypeId) (t : Ty) (count : Nat) (f : Nat → Ty) : Prop :=
  Step.Ends x p
    (fun id q => p.Grows q ∧ t.GenericsBelow count ∧ q.tree id = .ok (t.replace f))
    fun fault q => p.Grows q ∧ t.Lacks count fault

/-- The step makes the pool grow and ends with the given type. -/
def Gives (p : Pool) (x : Step Pool TypeId) (t : Ty) : Prop :=
  ∃ id q, x p = .ok id q ∧ p.Grows q ∧ q.tree id = .ok t

/-- The second step ends with the id that the first one ends with, whatever has been interned
in between. -/
def Same (p : Pool) (x y : Step Pool TypeId) : Prop :=
  ∃ id q, x p = .ok id q ∧ p.Grows q ∧ ∀ q', q.Grows q' → ∃ r, y q' = .ok id r ∧ q'.Grows r

theorem Makes.gives {x : Step Pool TypeId} {count : Nat} {f : Nat → Ty} (h : p.Makes x t count f)
    (ht : t.GenericsBelow count) : p.Gives x (t.replace f) := by
  obtain ⟨id, q, hrun, hpq, -, hid⟩ := Step.Ends.exists_ok
    (Step.Ends.imp h (fun _ _ h => h) fun _ _ h => h.2.not_below ht)
  exact ⟨id, q, hrun, hpq, hid⟩

/-- Steps that end with one type end with one id. -/
theorem Gives.same {x y : Step Pool TypeId} (hp : p.Proper) (hx : p.Gives x t)
    (hy : ∀ q, p.Grows q → q.Gives y t) : p.Same x y := by
  obtain ⟨id, q, hrun, hpq, hid⟩ := hx
  refine ⟨id, q, hrun, hpq, fun q' hqq' => ?_⟩
  obtain ⟨id', r, hrun', hqr, hid'⟩ := hy q' (hpq.trans hqq')
  have hr : r.Proper := (hqq'.trans hqr).proper (hpq.proper hp)
  obtain rfl : id = id' := tree_inj hr.distinct ((hqq'.trans hqr).extends.tree hid) hid'
  exact ⟨r, hrun', hqr⟩

/-- The elements of a tuple are replaced from left to right, each in the pool that the one
before it leaves behind. -/
theorem ends_mapM_makes {f : Nat → Ty} {count : Nat} (apply : TypeId → Step Pool TypeId)
    {elements : List TypeId} (before : List Ty) {ts : List Ty} (hts : elements.mapM p.tree = .ok ts)
    (happly : ∀ e ∈ elements, ∀ q t, p.Grows q → q.tree e = .ok t →
      q.Makes (apply e) t count f)
    (hbefore : ∀ t ∈ before, t.GenericsBelow count) :
    Step.Ends (elements.mapM apply) p
      (fun ids q => p.Grows q ∧ (∀ t ∈ ts, t.GenericsBelow count) ∧
        ids.mapM q.tree = .ok (ts.map (Ty.replace f)))
      fun fault q => p.Grows q ∧ (Ty.tuple (before ++ ts)).Lacks count fault := by
  induction elements generalizing p before ts with
  | nil =>
    cases hts
    rw [List.mapM_nil]
    exact ⟨.refl, List.forall_mem_nil _, rfl⟩
  | cons e rest ih =>
    obtain ⟨t, ts, ht, hrest, rfl⟩ := mapM_cons_eq_ok.mp hts
    rw [List.mapM_cons, Step.ends_bind]
    refine Step.Ends.imp (happly e List.mem_cons_self p t .refl ht) ?_ ?_
    · rintro id q ⟨hpq, hbelow, hid⟩
      have hrest' : rest.mapM q.tree = .ok ts :=
        List.map_id' ts ▸ mapM_mono hrest fun _ _ _ h => hpq.extends.tree h
      have hbefore' : ∀ t' ∈ before ++ [t], t'.GenericsBelow count := by
        rw [List.forall_mem_append, List.forall_mem_singleton]
        exact ⟨hbefore, hbelow⟩
      rw [Step.ends_bind]
      refine Step.Ends.imp (ih _ hrest' (fun e' he' r t' hqr => ?_) hbefore') ?_ ?_
      · exact happly e' (List.mem_cons_of_mem _ he') r t' (hpq.trans hqr)
      · rintro ids r ⟨hqr, hall, hids⟩
        refine ⟨hpq.trans hqr, List.forall_mem_cons.mpr ⟨hbelow, hall⟩, ?_⟩
        exact mapM_cons_eq_ok.mpr ⟨_, _, hqr.extends.tree hid, hids, rfl⟩
      · rintro fault r ⟨hqr, hlacks⟩
        rw [List.append_assoc] at hlacks
        exact ⟨hpq.trans hqr, hlacks⟩
    · rintro fault q ⟨hpq, hlacks⟩
      exact ⟨hpq, Ty.lacks_tuple hbefore hlacks⟩

end Pool

namespace Subst

variable {s r : Subst} {p q : Pool} {f g : Nat → Ty} {id : TypeId} {t : Ty}

/-- The replacements are types of the pool. -/
def Over (s : Subst) (p : Pool) : Prop := ∀ id ∈ s.replacements, id < p.size

instance : Decidable (s.Over p) :=
  inferInstanceAs (Decidable (∀ id ∈ s.replacements, id < p.size))

/-- What the replacements stand for, by the index of the parameter. -/
def Denotes (s : Subst) (p : Pool) (f : Nat → Ty) : Prop :=
  ∀ (index : Nat) (id : TypeId), s.replacements[index]? = some id → p.tree id = .ok (f index)

theorem Denotes.extends (hs : s.Denotes p f) (h : p.Extends q) : s.Denotes q f :=
  fun index id hid => h.tree (hs index id hid)

theorem Over.exists_denotes (hs : s.Over p) (hp : p.Proper) : ∃ f, s.Denotes p f := by
  have hchoice : ∀ index : Nat, ∃ t, ∀ id, s.replacements[index]? = some id →
      p.tree id = .ok t := by
    intro index
    cases hindex : s.replacements[index]? with
    | none =>
      refine ⟨.unit, fun id hid => ?_⟩
      cases hid
    | some id =>
      obtain ⟨t, ht⟩ := hp.exists_tree (hs id (List.mem_of_getElem? hindex))
      exact ⟨t, by rintro _ ⟨⟩; exact ht⟩
  exact Classical.skolem.mp hchoice

end Subst

namespace Pool

variable {s r : Subst} {p q : Pool} {f g : Nat → Ty} {id : TypeId} {t : Ty}

/-- Replacing parameters in a type of a pool is replacing them in the type written out. -/
theorem Proper.makes_applyTo :
    ∀ {depth : Nat} {p : Pool} {id : TypeId} {t : Ty}, p.Proper → s.Denotes p f →
      p.tree id = .ok t → id < depth →
      p.Makes (s.applyTo depth id) t s.replacements.length f := by
  intro depth
  induction depth with
  | zero => intro p id t _ _ _ hdepth; exact absurd hdepth (Nat.not_lt_zero id)
  | succ depth ih =>
    intro p id t hp hs ht hdepth
    obtain ⟨shape, hshape⟩ : ∃ shape, p.shapes[id]? = some shape :=
      ⟨_, List.getElem?_eq_getElem (lt_size_of_tree ht)⟩
    unfold Makes
    rw [Subst.applyTo, Step.ends_bind, Step.ends_get, Step.ends_bind, shape_eq_ok.mpr hshape,
      Step.ends_liftM_ok]
    cases shape with
    | generic index =>
      obtain rfl := treeTo_generic (shape_eq_ok.mpr hshape) ht
      simp only
      cases hr : s.replacements[index]? with
      | none =>
        rw [List.getElem?_eq_none_iff] at hr
        exact ⟨.refl, index, by simp [Ty.generics, hr], rfl⟩
      | some id' =>
        refine ⟨.refl, ?_, hs index id' hr⟩
        rw [Ty.genericsBelow_iff, Ty.generics, List.forall_mem_singleton]
        exact (List.getElem?_eq_some_iff.mp hr).1
    | tuple elements =>
      obtain ⟨ts, rfl, hts⟩ := hp.exists_elements hshape ht
      have hlt : ∀ e ∈ elements, e < id := hp.elements_lt hshape
      have hends := ends_mapM_makes (s.applyTo depth) [] hts
        (fun e he q t' hpq ht' => ih (hpq.proper hp) (hs.extends hpq.extends) ht'
          (Nat.lt_of_lt_of_le (hlt e he) (Nat.le_of_lt_succ hdepth)))
        (List.forall_mem_nil _)
      simp only [Step.ends_bind]
      refine hends.imp ?_ fun fault q h => h
      rintro ids q ⟨hpq, hbelow, hids⟩
      have hq := hpq.proper hp
      have hknown : ∀ e ∈ (Shape.tuple ids).elements, e < q.size := fun e he => by
        obtain ⟨t', -, ht'⟩ := mem_of_mapM hids e he
        exact lt_size_of_tree ht'
      refine (hq.grows_intern hknown).imp ?_ fun _ _ h => h.elim
      rintro id' r ⟨hqr, hid'⟩
      refine ⟨hpq.trans hqr, ?_, ?_⟩
      · rw [Ty.genericsBelow_iff, Ty.generics_tuple]
        intro index hindex
        obtain ⟨t', ht', hindex⟩ := List.mem_flatMap.mp hindex
        exact Ty.genericsBelow_iff.mp (hbelow t' ht') index hindex
      · have hids' : ids.mapM r.tree = .ok (ts.map (Ty.replace f)) :=
          List.map_id' (ts.map (Ty.replace f)) ▸
            mapM_mono hids fun _ _ _ h => hqr.extends.tree h
        rw [(hqr.proper hq).tree_tuple hid', hids', Ty.replace_tuple]
        rfl
    | _ =>
      -- any other type is its own replacement
      rw [tree, maxDepth, treeTo, shape_eq_ok.mpr hshape] at ht
      cases ht
      refine ⟨.refl, ?_, ?_⟩
      · intro index hindex
        cases hindex
      · rw [tree, maxDepth, treeTo, shape_eq_ok.mpr hshape]
        rfl

theorem Proper.makes_apply (hp : p.Proper) (hs : s.Denotes p f) (ht : p.tree id = .ok t) :
    p.Makes (s.apply id) t s.replacements.length f := by
  unfold Makes
  rw [Subst.apply, Step.ends_bind, Step.ends_get]
  refine hp.makes_applyTo hs ht (Nat.lt_of_lt_of_le (lt_size_of_tree ht) ?_)
  rw [maxDepth]
  omega

end Pool

/-! ### One substitution after the other -/

namespace Subst

variable {s r : Subst} {p q : Pool} {f g : Nat → Ty} {id : TypeId} {t : Ty}

/-- First this substitution and then the other one, as a single one. -/
def andThen (s r : Subst) : Step Pool Subst := do
  return ⟨← s.replacements.mapM r.apply⟩

theorem Denotes.mapM_tree (hs : s.Denotes p f) :
    s.replacements.mapM p.tree = .ok ((List.range s.replacements.length).map f) := by
  rw [mapM_eq_ok]
  refine List.ext_getElem? fun index => ?_
  rw [List.getElem?_map, List.map_map, List.getElem?_map]
  rcases Nat.lt_or_ge index s.replacements.length with hlt | hge
  · rw [List.getElem?_range hlt, List.getElem?_eq_getElem hlt]
    exact congrArg some (hs index _ (List.getElem?_eq_getElem hlt))
  · rw [List.getElem?_eq_none hge, List.getElem?_eq_none (by rwa [List.length_range])]
    rfl

/-- The replacements of a single substitution in the place of two. -/
theorem Denotes.ends_andThen (hp : p.Proper) (hs : s.Denotes p f) (hr : r.Denotes p g)
    (hbelow : ∀ index < s.replacements.length, (f index).GenericsBelow r.replacements.length) :
    Step.Ends (s.andThen r) p
      (fun both q => p.Grows q ∧ both.replacements.length = s.replacements.length ∧
        both.Denotes q fun index => (f index).replace g) fun _ _ => False := by
  rw [andThen, Step.ends_bind]
  have hends := Pool.ends_mapM_makes r.apply [] hs.mapM_tree
    (fun e _ q t hpq ht => (hpq.proper hp).makes_apply (hr.extends hpq.extends) ht)
    (List.forall_mem_nil _)
  refine hends.imp ?_ ?_
  · rintro ids q ⟨hpq, -, hids⟩
    rw [mapM_eq_ok, List.map_map, List.map_map] at hids
    refine ⟨hpq, by simpa using congrArg List.length hids, ?_⟩
    intro index id hid
    have hindex := congrArg (·[index]?) hids
    rw [List.getElem?_map, List.getElem?_map, hid] at hindex
    obtain ⟨index', hindex', heq⟩ := Option.map_eq_some_iff.mp hindex.symm
    obtain ⟨_, rfl⟩ := List.getElem?_eq_some_iff.mp hindex'
    rw [List.getElem_range] at heq
    exact heq.symm
  · rintro fault q ⟨-, hlacks⟩
    refine hlacks.not_below ?_
    rw [Ty.genericsBelow_iff, List.nil_append, Ty.generics_tuple]
    intro index hindex
    obtain ⟨t, ht, hindex⟩ := List.mem_flatMap.mp hindex
    obtain ⟨i, hi, rfl⟩ := List.mem_map.mp ht
    exact Ty.genericsBelow_iff.mp (hbelow i (List.mem_range.mp hi)) index hindex

/-- Substitute in a type, and then in what comes of it. -/
def inTurn (s r : Subst) (id : TypeId) : Step Pool TypeId := do
  r.apply (← s.apply id)

/-- Substitute in a type once, with the replacements substituted. -/
def atOnce (s r : Subst) (id : TypeId) : Step Pool TypeId := do
  (← s.andThen r).apply id

theorem Denotes.gives_inTurn (hp : p.Proper) (hs : s.Denotes p f) (hr : r.Denotes p g)
    (ht : p.tree id = .ok t) (hsbelow : t.GenericsBelow s.replacements.length)
    (hrbelow : ∀ index < s.replacements.length, (f index).GenericsBelow r.replacements.length) :
    p.Gives (s.inTurn r id) ((t.replace f).replace g) := by
  have honce : (t.replace f).GenericsBelow r.replacements.length := by
    rw [Ty.genericsBelow_iff] at hsbelow ⊢
    rw [Ty.generics_replace]
    intro index hindex
    obtain ⟨i, hi, hindex⟩ := List.mem_flatMap.mp hindex
    exact Ty.genericsBelow_iff.mp (hrbelow i (hsbelow i hi)) index hindex
  obtain ⟨once, q, hrun, hpq, hid⟩ := (hp.makes_apply hs ht).gives hsbelow
  obtain ⟨twice, q', hrun', hqq', hid'⟩ :=
    ((hpq.proper hp).makes_apply (hr.extends hpq.extends) hid).gives honce
  exact ⟨twice, q', by rw [inTurn, Step.bind_of_ok hrun, hrun'], hpq.trans hqq', hid'⟩

theorem Denotes.gives_atOnce (hp : p.Proper) (hs : s.Denotes p f) (hr : r.Denotes p g)
    (ht : p.tree id = .ok t) (hsbelow : t.GenericsBelow s.replacements.length)
    (hrbelow : ∀ index < s.replacements.length, (f index).GenericsBelow r.replacements.length) :
    p.Gives (s.atOnce r id) (t.replace fun index => (f index).replace g) := by
  obtain ⟨both, q, hrun, hpq, hlength, hboth⟩ := (Denotes.ends_andThen hp hs hr hrbelow).exists_ok
  obtain ⟨id', q', hrun', hqq', hid'⟩ := ((hpq.proper hp).makes_apply hboth
    (hpq.extends.tree ht)).gives (hlength ▸ hsbelow)
  exact ⟨id', q', by rw [atOnce, Step.bind_of_ok hrun, hrun'], hpq.trans hqq', hid'⟩

/-! ### Forwarding -/

theorem grows_internGenerics (indices : List Nat) (p : Pool) :
    Step.Ends (indices.mapM fun index => Pool.intern (.generic index)) p
      (fun _ q => p.Grows q) fun _ q => p.Grows q := by
  induction indices generalizing p with
  | nil => exact .refl
  | cons index rest ih =>
    rw [List.mapM_cons]
    refine Step.Ends.bind_rel ?_ (fun id q _ => ?_) fun _ _ h h' => h.trans h'
    · unfold Step.Ends
      cases hrun : Pool.intern (.generic index) p with
      | ok id q => exact .intern .refl (fun _ he => absurd he List.not_mem_nil) hrun
      | error fault q =>
        obtain ⟨_, -, hok⟩ | ⟨_, hok⟩ := Pool.intern_cases p (.generic index) <;>
          exact absurd (hok.symm.trans hrun) nofun
    · rw [Step.ends_bind]
      exact (ih q).imp (fun _ _ h => h) fun _ _ h => h

theorem IsIdentity.extends (hs : s.IsIdentity p) (h : p.Extends q) : s.IsIdentity q :=
  fun index id hid => Pool.shape_eq_ok.mp (h.shape (Pool.shape_eq_ok.mpr (hs index id hid)))

/-- The substitution leaves the type, and the pool, as they are. -/
theorem IsIdentity.apply_eq (hs : s.IsIdentity p) (hp : p.Distinct) {id : TypeId} {t : Ty}
    (ht : p.tree id = .ok t) (hbelow : t.GenericsBelow s.replacements.length) :
    s.apply id p = .ok id p := by
  obtain ⟨id', q, hrun, rfl, rfl⟩ := Step.Ends.exists_ok
    ((hs.ends_apply hp id).imp (fun _ _ h => h) fun _ _ h => h.2 t ht hbelow)
  exact hrun

theorem IsIdentity.substitute_eq (hs : s.IsIdentity p) (hp : p.Distinct) {sig : Signature}
    (hsig : ∀ type ∈ sig.types, ∃ t, p.tree type = .ok t ∧
      t.GenericsBelow s.replacements.length) : sig.substitute s p = .ok sig p := by
  obtain ⟨sig', q, hrun, rfl, rfl⟩ := Step.Ends.exists_ok
    ((hs.ends_substitute hp sig).imp (fun _ _ h => h) fun _ _ h => by
      obtain ⟨-, type, htype, hnot⟩ := h
      obtain ⟨t, ht, hbelow⟩ := hsig type htype
      exact hnot t ht hbelow)
  exact hrun

end Subst

/-! ### The laws -/

namespace Pool

/-- What holds of substitutions in a pool. -/
structure Substitutes (p : Pool) : Prop where
  /-- Every id stands for a type, -/
  stands : ∀ id, id < p.size → ∃ t, p.tree id = .ok t
  /-- two ids are equal exactly if their types are, -/
  unique : ∀ id id', id < p.size → id' < p.size → (p.tree id = p.tree id' ↔ id = id')
  /-- and an id never stands for anything else. -/
  lasting : ∀ q, p.Grows q → ∀ id, id < p.size → q.tree id = p.tree id
  /-- Parameters are replaced in the type written out, and a substitution fails exactly if
  there is a parameter that it has no replacement for. -/
  replaced : ∀ s : Subst, s.Over p → ∃ f, s.Denotes p f ∧
    ∀ id t, p.tree id = .ok t → p.Makes (s.apply id) t s.replacements.length f
  /-- Substituting twice, and once with the replacements substituted, give one id. -/
  twice : ∀ s r : Subst, s.Over p → r.Over p →
    ∀ id t, p.tree id = .ok t → t.GenericsBelow s.replacements.length →
    (∀ e ∈ s.replacements, ∀ u, p.tree e = .ok u → u.GenericsBelow r.replacements.length) →
    p.Same (s.inTurn r id) (s.atOnce r id) ∧ p.Same (s.atOnce r id) (s.inTurn r id)
  /-- Forwarding parameters leaves every type and every signature over them as it is, from
  then on. -/
  forwarding : ∀ count, Step.Ends (Subst.forwarding count) p
    (fun s q => p.Grows q ∧ ∀ r, q.Grows r →
      (∀ id t, r.tree id = .ok t → t.GenericsBelow count → s.apply id r = .ok id r) ∧
      ∀ sig : Signature,
        (∀ type ∈ sig.types, ∃ t, r.tree type = .ok t ∧ t.GenericsBelow count) →
        sig.substitute s r = .ok sig r)
    fun _ _ => False

theorem Proper.ends_forwarding {p : Pool} (hp : p.Proper) (count : Nat) :
    Step.Ends (Subst.forwarding count) p
      (fun s q => p.Grows q ∧ s.IsIdentity q ∧ s.replacements.length = count)
      fun _ _ => False := by
  have hgrows : Step.Ends (Subst.forwarding count) p (fun _ q => p.Grows q)
      fun _ q => p.Grows q := by
    rw [Subst.forwarding, Step.ends_bind]
    exact (Subst.grows_internGenerics _ p).imp (fun _ _ h => h) fun _ _ h => h
  exact ((Subst.ends_forwarding hp.distinct count).and hgrows).imp
    (fun _ _ h => ⟨h.2, h.1.2.2⟩) fun _ _ h => h.1

/-- The laws of substitution hold in every pool in which types are interned after their
elements. -/
theorem Grows.substitutes {p : Pool} (h : Pool.new.Grows p) : p.Substitutes := by
  have hp : p.Proper := h.proper proper_new
  exact {
    stands := fun _ hid => hp.exists_tree hid
    unique := fun _ _ hid _ => hp.tree_eq_iff hid
    lasting := fun q hpq id hid => by
      obtain ⟨t, ht⟩ := hp.exists_tree hid
      rw [ht, hpq.extends.tree ht]
    replaced := fun s hs => by
      obtain ⟨f, hf⟩ := hs.exists_denotes hp
      exact ⟨f, hf, fun _ _ ht => hp.makes_apply hf ht⟩
    twice := fun s r hs hr id t ht hsbelow hrbelow => by
      obtain ⟨f, hf⟩ := hs.exists_denotes hp
      obtain ⟨g, hg⟩ := hr.exists_denotes hp
      replace hrbelow : ∀ index < s.replacements.length,
          (f index).GenericsBelow r.replacements.length := fun index hindex => by
        have hget := List.getElem?_eq_getElem hindex
        exact hrbelow _ (List.mem_of_getElem? hget) _ (hf index _ hget)
      have hinTurn : ∀ q, p.Grows q → q.Gives (s.inTurn r id) ((t.replace f).replace g) :=
        fun q hq => Subst.Denotes.gives_inTurn (hq.proper hp) (hf.extends hq.extends)
          (hg.extends hq.extends) (hq.extends.tree ht) hsbelow hrbelow
      have hatOnce : ∀ q, p.Grows q → q.Gives (s.atOnce r id) ((t.replace f).replace g) := by
        intro q hq
        rw [Ty.replace_replace]
        exact Subst.Denotes.gives_atOnce (hq.proper hp) (hf.extends hq.extends)
          (hg.extends hq.extends) (hq.extends.tree ht) hsbelow hrbelow
      exact ⟨(hinTurn p .refl).same hp hatOnce, (hatOnce p .refl).same hp hinTurn⟩
    forwarding := fun count => by
      refine (hp.ends_forwarding count).imp ?_ fun _ _ h => h
      rintro s q ⟨hpq, hs, rfl⟩
      refine ⟨hpq, fun r hqr => ?_⟩
      have hr := (hqr.proper (hpq.proper hp)).distinct
      have hidentity := hs.extends hqr.extends
      exact ⟨fun _ _ ht hbelow => hidentity.apply_eq hr ht hbelow,
        fun _ hsig => hidentity.substitute_eq hr hsig⟩ }

end Pool

/-! ### Two parameters -/

namespace Pairs

/-- The second of two parameters in a pair with a number, and the first one beside it. -/
def pool : Pool :=
  Pool.new.extend [.generic 0, .generic 1, .tuple [9, 3], .tuple [8, 10]]

/-- The last type of the pool, written out. -/
def type : Ty := .tuple [.generic 0, .tuple [.generic 1, .scalar .i32]]

theorem grows_pool : Pool.new.Grows pool := by
  have h₀ : Pool.new.Grows _ := .intern .refl (s := .generic 0) (by decide) rfl
  have h₁ : Pool.new.Grows _ := .intern h₀ (s := .generic 1) (by decide) rfl
  have h₂ : Pool.new.Grows _ := .intern h₁ (s := .tuple [9, 3]) (by decide) rfl
  exact .intern h₂ (s := .tuple [8, 10]) (by decide) rfl

/-- The pair takes the place of the first parameter, and brings the second one along. -/
theorem substitutes_pool :
    Pool.new.Grows pool ∧ pool.tree 11 = .ok type ∧
      pool.Same (Subst.inTurn ⟨[10, 2]⟩ ⟨[4, 5]⟩ 11) (Subst.atOnce ⟨[10, 2]⟩ ⟨[4, 5]⟩ 11) ∧
      ∃ q, (⟨[10]⟩ : Subst).apply 11 pool = .error (.trap (.noReplacement 1 1)) q := by
  have hlaws := grows_pool.substitutes
  have htype : pool.tree 11 = .ok type := rfl
  refine ⟨grows_pool, htype, ?_, ?_⟩
  · refine (hlaws.twice ⟨[10, 2]⟩ ⟨[4, 5]⟩ (by decide) (by decide) 11 type htype (by decide) ?_).1
    simp only [List.forall_mem_cons, List.not_mem_nil, false_implies, implies_true, and_true]
    refine ⟨fun u hu => ?_, fun u hu => ?_⟩
    · cases hu
      decide
    · cases hu
      decide
  · obtain ⟨f, -, hmakes⟩ := hlaws.replaced ⟨[10]⟩ (by decide)
    obtain ⟨fault, q, hrun, -, index, hindex, rfl⟩ := Step.Ends.exists_error
      (Step.Ends.imp (hmakes 11 type htype) (fun _ _ h => absurd h.2.1 (by decide)) fun _ _ h => h)
    obtain rfl : 1 = index := Option.some.inj hindex
    exact ⟨q, hrun⟩

end Pairs

end Dispatch
