import Dispatch.Proofs.Emission
import Dispatch.Proofs.Substitution

/-!
# Flattening types

Two walks classify a type: one looks for a generic parameter, the other collects scalars and
stops at a generic parameter.  In a pool in which types come after their elements both are
told from the type written out, so they agree, and whatever needs the scalars of a type asks
for them only where there are some.  Substitution changes a type at its parameters alone, and
so its scalars.

## Main definitions

* `Ty.flatten` — the scalars of a type, with given ones in the place of each parameter.
* `Step.Overflows` — a step whose only fault is a size that does not fit.
* `Pool.Flattens` — what holds of the walks in a pool.

## Main results

* `Ty.isGeneric_replace`, `Ty.scalars_replace` — both classifications, after a substitution.
* `Pool.componentsTo_of_generic` — the walk for scalars stops at the first parameter.
* `Layout.lower_or_overflow` — a method of known types has a native signature, or its sizes
  do not fit.
* `Pool.Grows.flattens` — the walks in every pool.
-/

namespace Dispatch

open Attempt

/-! ### Types written out -/

namespace Ty

mutual

/-- The scalars of the type, in field order, where each generic parameter has the given
ones. -/
def flatten (g : Nat → List Scalar) : Ty → List Scalar
  | .unit => []
  | .scalar kind => [kind]
  | .tuple elements => flattenAll g elements
  | .object _ => [.ptr]
  | .metatype _ => [.ptr]
  | .protocolSelf _ => [.ptr]
  | .generic index => g index

/-- The scalars of several types, one type after the other. -/
def flattenAll (g : Nat → List Scalar) : List Ty → List Scalar
  | [] => []
  | t :: rest => t.flatten g ++ flattenAll g rest

end

variable {f : Nat → Ty} {t : Ty}

theorem flattenAll_eq_flatMap (g : Nat → List Scalar) (ts : List Ty) :
    flattenAll g ts = ts.flatMap (flatten g) := by
  induction ts with
  | nil => rfl
  | cons t rest ih => rw [flattenAll, ih, List.flatMap_cons]

@[simp] theorem flatten_tuple (g : Nat → List Scalar) (ts : List Ty) :
    (tuple ts).flatten g = ts.flatMap (flatten g) := by
  rw [flatten, flattenAll_eq_flatMap]

/-- After a substitution, the scalars of the replacements stand where the parameters were. -/
theorem scalars_replace (f : Nat → Ty) (t : Ty) :
    (t.replace f).scalars = t.flatten fun index => (f index).scalars := by
  induction t using induct with
  | tuple ts ih =>
    rw [replace_tuple, scalars, scalarsOf_eq_flatten, List.map_map, flatten_tuple,
      List.flatMap_def]
    exact congrArg List.flatten (List.map_congr_left ih)
  | _ => rfl

/-- A type contains a generic parameter if one is found in it. -/
theorem isGeneric_iff : t.isGeneric = true ↔ ∃ index, index ∈ t.generics := by
  rw [isGeneric, Option.isSome_iff_exists]
  constructor
  · rintro ⟨index, hindex⟩
    exact ⟨index, mem_generics_of_maxGeneric index hindex⟩
  · rintro ⟨index, hindex⟩
    obtain ⟨highest, hhighest, -⟩ := le_maxGeneric hindex
    exact ⟨highest, hhighest⟩

theorem generics_eq_nil (h : t.isGeneric = false) : t.generics = [] := by
  refine List.eq_nil_iff_forall_not_mem.mpr fun index hindex => ?_
  rw [isGeneric_iff.mpr ⟨index, hindex⟩] at h
  cases h

/-- After a substitution, parameters come from replacements alone. -/
theorem isGeneric_replace (f : Nat → Ty) (t : Ty) :
    (t.replace f).isGeneric = true ↔ ∃ index ∈ t.generics, (f index).isGeneric = true := by
  simp only [isGeneric_iff, generics_replace, List.mem_flatMap]
  constructor
  · rintro ⟨i, index, hindex, hi⟩
    exact ⟨index, hindex, i, hi⟩
  · rintro ⟨index, hindex, i, hi⟩
    exact ⟨i, index, hindex, hi⟩

end Ty

/-! ### The two walks -/

namespace Pool

variable {p : Pool} {id : TypeId} {t : Ty} {depth index : Nat}

/-- The walk over the elements of a tuple stops at the first element with a parameter. -/
theorem mapM_components_of_generic {elements : List TypeId} {ts : List Ty}
    (hts : elements.mapM (p.treeTo depth) = .ok ts)
    (hfirst : (ts.flatMap Ty.generics).head? = some index)
    (hstop : ∀ e t, p.treeTo depth e = .ok t → t.generics.head? = some index →
      ∃ e', p.shape e' = .ok (.generic index) ∧
        p.componentsTo depth e = Attempt.abi (.addressOnly e')) :
    ∃ e', p.shape e' = .ok (.generic index) ∧
      elements.mapM (p.componentsTo depth) = Attempt.abi (.addressOnly e') := by
  induction elements generalizing ts with
  | nil =>
    cases hts
    cases hfirst
  | cons e rest ih =>
    obtain ⟨t, ts, ht, hrest, rfl⟩ := mapM_cons_eq_ok.mp hts
    rw [List.flatMap_cons, List.head?_append] at hfirst
    rw [List.mapM_cons]
    cases hg : t.isGeneric with
    | true =>
      obtain ⟨i, hi⟩ := Ty.isGeneric_iff.mp hg
      obtain ⟨first, more, hgenerics⟩ := List.exists_cons_of_ne_nil (List.ne_nil_of_mem hi)
      rw [hgenerics, List.head?_cons, Option.some_or, Option.some.injEq] at hfirst
      subst hfirst
      obtain ⟨e', hshape, hcomponents⟩ := hstop e t ht (by rw [hgenerics, List.head?_cons])
      exact ⟨e', hshape, by rw [hcomponents]; rfl⟩
    | false =>
      rw [Ty.generics_eq_nil hg, List.head?_nil, Option.none_or] at hfirst
      obtain ⟨e', hshape, hcomponents⟩ := ih hrest hfirst
      refine ⟨e', hshape, ?_⟩
      rw [componentsTo_of_treeTo ht hg, hcomponents]
      rfl

/-- The walk for scalars stops at the first generic parameter, and names it. -/
theorem componentsTo_of_generic :
    ∀ {depth : Nat} {id : TypeId} {t : Ty}, p.treeTo depth id = .ok t →
      t.generics.head? = some index →
      ∃ e, p.shape e = .ok (.generic index) ∧
        p.componentsTo depth id = Attempt.abi (.addressOnly e) := by
  intro depth
  induction depth with
  | zero =>
    intro id t ht
    cases ht
  | succ depth ih =>
    intro id t ht hfirst
    rw [treeTo] at ht
    obtain ⟨shape, hshape, ht⟩ := bind_eq_ok.mp ht
    rw [componentsTo, hshape, ok_bind]
    cases shape with
    | tuple elements =>
      obtain ⟨ts, hts, ht⟩ := bind_eq_ok.mp ht
      cases ht
      rw [Ty.generics_tuple] at hfirst
      obtain ⟨e, he, hcomponents⟩ :=
        mapM_components_of_generic hts hfirst fun _ _ ht hfirst => ih ht hfirst
      exact ⟨e, he, by simp only [hcomponents]; rfl⟩
    | generic i =>
      cases ht
      cases hfirst
      exact ⟨id, hshape, rfl⟩
    | _ =>
      cases ht
      cases hfirst

/-- The walks agree on a type that can be written out. -/
theorem components_of_tree (ht : p.tree id = .ok t) :
    (p.isAddressOnly id = .ok false ∧ p.components id = .ok t.scalars) ∨
      (p.isAddressOnly id = .ok true ∧ ∃ e index, t.generics.head? = some index ∧
        p.shape e = .ok (.generic index) ∧ p.components id = Attempt.abi (.addressOnly e)) := by
  have haddress : p.isAddressOnly id = .ok t.isGeneric := addressOnlyTo_of_treeTo ht
  rw [haddress]
  cases hg : t.isGeneric with
  | false => exact .inl ⟨rfl, componentsTo_of_treeTo ht hg⟩
  | true =>
    obtain ⟨i, hi⟩ := Ty.isGeneric_iff.mp hg
    obtain ⟨first, more, hgenerics⟩ := List.exists_cons_of_ne_nil (List.ne_nil_of_mem hi)
    have hfirst : t.generics.head? = some first := by rw [hgenerics, List.head?_cons]
    obtain ⟨e, hshape, hcomponents⟩ := componentsTo_of_generic ht hfirst
    exact .inr ⟨rfl, e, first, hfirst, hshape, hcomponents⟩

end Pool

/-! ### Native signatures -/

namespace Step

variable {σ α β : Type}

/-- If the step fails, some size does not fit. -/
def Overflows (x : Step σ α) : Prop :=
  ∀ s, Ends x s (fun _ _ => True) fun fault _ => ∃ operation, fault = .trap (.overflow operation)

theorem overflows_pure (a : α) : Overflows (pure a : Step σ α) := fun _ => trivial

theorem Overflows.bind {x : Step σ α} {f : α → Step σ β} (hx : Overflows x)
    (hf : ∀ a, Overflows (f a)) : Overflows (x >>= f) := fun s => by
  rw [ends_bind]
  exact (hx s).imp (fun a s' _ => hf a s') fun _ _ h => h

theorem overflows_fits (operation : Overflow) (value : Option α) :
    Overflows (liftM (Attempt.fits operation value) : Step σ α) := fun _ => by
  cases value with
  | none => exact ⟨operation, rfl⟩
  | some a => exact trivial

theorem overflows_ok {attempt : Attempt α} {a : α} (h : attempt = .ok a) :
    Overflows (liftM attempt : Step σ α) := fun _ => by
  rw [h]
  exact trivial

theorem overflows_get : Overflows (get : Step σ σ) := fun _ => trivial

theorem overflows_set (s : σ) : Overflows (set s : Step σ PUnit) := fun _ => trivial

end Step

namespace Cursor

open Step

theorem overflows_advance (bytes : Nat) : Overflows (advance bytes) :=
  overflows_get.bind fun _ => (overflows_fits _ _).bind fun _ =>
    (overflows_set _).bind fun _ => overflows_pure _

theorem overflows_wordIf (present : Bool) : Overflows (wordIf present) := by
  cases present with
  | false => exact overflows_pure none
  | true => exact (overflows_advance _).bind fun _ => overflows_pure _

theorem overflows_value (passing : Passing) : Overflows (value passing) := by
  have hword : Overflows (word >>= fun offset => pure (FrameField.address offset)) :=
    (overflows_advance _).bind fun _ => overflows_pure _
  cases passing with
  | direct schema =>
    exact (overflows_fits _ _).bind fun _ => (overflows_advance _).bind fun _ => overflows_pure _
  | indirect schema => exact hword
  | address => exact hword

theorem overflows_results (passing : Passing) : Overflows (results passing) := by
  cases passing with
  | direct schema =>
    rw [results]
    split
    · exact overflows_pure none
    · exact (overflows_value _).bind fun _ => overflows_pure _
  | indirect schema => exact overflows_pure none
  | address => exact overflows_pure none

end Cursor

namespace Layout

open Step

variable {l : Layout} {p : Pool} {m : Method}

theorem overflows_frameArgs {types : List TypeId}
    (h : ∀ type ∈ types, ∃ passing, l.passing p type = .ok passing) :
    Overflows (l.frameArgs p types) := by
  induction types with
  | nil => exact overflows_pure []
  | cons type rest ih =>
    obtain ⟨passing, hpassing⟩ := h type List.mem_cons_self
    rw [frameArgs]
    exact (overflows_ok hpassing).bind fun _ => (Cursor.overflows_value _).bind fun _ =>
      (ih fun type htype => h type (List.mem_cons_of_mem _ htype)).bind fun _ => overflows_pure _

theorem exists_passing (hm : m.Known p) {type : TypeId}
    (h : type ∈ m.signature.params ∨ type = m.signature.result) :
    ∃ passing, l.passing p type = .ok passing := by
  obtain ⟨t, ht⟩ : ∃ t, p.tree type = .ok t := h.elim (hm.params type) fun h => h ▸ hm.result
  exact ⟨_, passing_of_tree ht⟩

/-- Laying out the frame of a method of known types fails only if a size does not fit. -/
theorem overflows_layOut (hm : m.Known p) : Overflows (l.layOut p m) := by
  obtain ⟨passing, hpassing⟩ := exists_passing (l := l) hm (.inr rfl)
  rw [layOut]
  refine (Cursor.overflows_wordIf _).bind fun _ => (overflows_ok hpassing).bind fun _ => ?_
  refine (Cursor.overflows_wordIf _).bind fun _ => ?_
  refine (overflows_frameArgs fun _ ht => exists_passing hm (.inl ht)).bind fun _ => ?_
  refine (overflows_fits _ _).bind fun _ => (overflows_fits _ _).bind fun _ => ?_
  refine (Cursor.overflows_advance _).bind fun _ => (Cursor.overflows_advance _).bind fun _ => ?_
  refine (Cursor.overflows_wordIf _).bind fun _ => (Cursor.overflows_wordIf _).bind fun _ => ?_
  refine (Cursor.overflows_results _).bind fun _ => ?_
  exact overflows_get.bind fun _ => overflows_pure _

theorem edit_or_overflow (f : Frame) (e : FrameEdit) :
    (∃ f', f.edit e = .ok f') ∨ ∃ operation, f.edit e = Attempt.trap (.overflow operation) := by
  have hfits : ∀ {operation : Overflow} {size : Option Nat} {g : Nat → Frame},
      (∃ f', (Attempt.fits operation size >>= fun n => pure (g n)) = .ok f') ∨
        ∃ operation', (Attempt.fits operation size >>= fun n => pure (g n)) =
          Attempt.trap (.overflow operation') := by
    intro operation size g
    cases size with
    | none => exact .inr ⟨operation, rfl⟩
    | some n => exact .inl ⟨g n, rfl⟩
  cases e with
  | extraBinding => exact hfits
  | doubleSize => exact hfits
  | _ => exact .inl ⟨_, rfl⟩

theorem edits_or_overflow (edits : List FrameEdit) (f : Frame) :
    (∃ f', edits.foldlM Frame.edit f = .ok f') ∨
      ∃ operation, edits.foldlM Frame.edit f = Attempt.trap (.overflow operation) := by
  induction edits generalizing f with
  | nil => exact .inl ⟨f, rfl⟩
  | cons e rest ih =>
    rw [List.foldlM_cons]
    rcases edit_or_overflow f e with ⟨f', hf'⟩ | ⟨operation, hfail⟩
    · rw [hf', ok_bind]
      exact ih f'
    · exact .inr ⟨operation, by rw [hfail]; rfl⟩

theorem frame_or_overflow (hm : m.Known p) :
    (∃ f, l.frame p m = .ok f) ∨
      ∃ operation, l.frame p m = Attempt.trap (.overflow operation) := by
  rw [frame, standardFrame]
  have hends := overflows_layOut (l := l) hm frameHeaderBytes
  unfold Ends at hends
  cases hrun : l.layOut p m frameHeaderBytes with
  | ok f n => exact edits_or_overflow _ f
  | error fault n =>
    rw [hrun] at hends
    obtain ⟨operation, rfl⟩ := hends
    exact .inr ⟨operation, rfl⟩

/-- A method of known types has a native signature, or one of its sizes does not fit. -/
theorem lower_or_overflow (hm : m.Known p) :
    (∃ s, l.lower p m = .ok s) ∨
      ∃ operation, l.lower p m = Attempt.trap (.overflow operation) := by
  have hcarrier : ∀ type, (∃ passing, l.passing p type = .ok passing) →
      ∃ c, l.carrier p type = .ok c := by
    rintro type ⟨passing, hpassing⟩
    exact ⟨⟨type, passing⟩, by rw [carrier, hpassing]; rfl⟩
  obtain ⟨carriers, hcarriers⟩ := exists_mapM_ok fun type ht =>
    hcarrier type (exists_passing hm (.inl ht))
  obtain ⟨result, hresult⟩ := hcarrier _ (exists_passing hm (.inr rfl))
  rw [lower, hcarriers, ok_bind, hresult, ok_bind, Generics.bindingCount, addSize]
  cases hcount : Size.add? m.signature.generics.params m.signature.generics.requirements with
  | none => exact .inr ⟨.add, rfl⟩
  | some count =>
    rw [Attempt.fits, ok_bind]
    cases m.convention.isAsync with
    | false => exact .inl ⟨_, rfl⟩
    | true =>
      rcases frame_or_overflow (l := l) hm with ⟨f, hf⟩ | ⟨operation, hfail⟩
      · exact .inl ⟨_, by rw [hf]; rfl⟩
      · exact .inr ⟨operation, by rw [hfail]; rfl⟩

end Layout

/-! ### The walks in a pool -/

namespace Pool

/-- What holds of the two walks in a pool, and of what they are used for. -/
structure Flattens (p : Pool) : Prop where
  /-- Every type has scalars exactly if it contains no generic parameter; else the walk for them
  names the first one. -/
  components : ∀ id, id < p.size → ∃ t, p.tree id = .ok t ∧
    ((p.isAddressOnly id = .ok false ∧ p.components id = .ok t.scalars) ∨
      (p.isAddressOnly id = .ok true ∧ ∃ e index, t.generics.head? = some index ∧
        p.shape e = .ok (.generic index) ∧ p.components id = Attempt.abi (.addressOnly e)))
  /-- Every type is passed in some way, -/
  passing : ∀ (l : Layout) id, id < p.size → ∃ passing, l.passing p id = .ok passing
  /-- and every method has a native signature, unless its sizes do not fit. -/
  lower : ∀ (l : Layout) (m : Method), (∀ type ∈ m.signature.types, type < p.size) →
    ((∃ s, l.lower p m = .ok s) ∨
      ∃ operation, l.lower p m = Attempt.trap (.overflow operation)) ∧
    (l.frameEdits = [] → l.SizesFit p m → ∃ s, l.lower p m = .ok s)
  /-- A type with replacements contains a parameter exactly if the replacement of one of its
  parameters does.  Else its scalars are its own, with those of the replacements in the places
  of the parameters. -/
  replaced : ∀ (s : Subst) id t, s.Over p → p.tree id = .ok t →
    t.GenericsBelow s.replacements.length →
    ∃ id' q, s.apply id p = .ok id' q ∧ p.Grows q ∧
      ((q.isAddressOnly id' = .ok true ∧ ∃ index ∈ t.generics, ∃ e,
          s.replacements[index]? = some e ∧ p.isAddressOnly e = .ok true) ∨
        (q.isAddressOnly id' = .ok false ∧ ∃ g : Nat → List Scalar,
          (∀ index ∈ t.generics, ∃ e, s.replacements[index]? = some e ∧
            p.isAddressOnly e = .ok false ∧ p.components e = .ok (g index)) ∧
          q.components id' = .ok (t.flatten g)))

/-- A type with replacements, in a pool in which types come after their elements. -/
theorem Proper.flatten_apply {p : Pool} (hp : p.Proper) {s : Subst} {f : Nat → Ty} {id : TypeId}
    {t : Ty} (hs : s.Denotes p f) (ht : p.tree id = .ok t)
    (hbelow : t.GenericsBelow s.replacements.length) :
    ∃ id' q, s.apply id p = .ok id' q ∧ p.Grows q ∧
      ((q.isAddressOnly id' = .ok true ∧ ∃ index ∈ t.generics, ∃ e,
          s.replacements[index]? = some e ∧ p.isAddressOnly e = .ok true) ∨
        (q.isAddressOnly id' = .ok false ∧ ∃ g : Nat → List Scalar,
          (∀ index ∈ t.generics, ∃ e, s.replacements[index]? = some e ∧
            p.isAddressOnly e = .ok false ∧ p.components e = .ok (g index)) ∧
          q.components id' = .ok (t.flatten g))) := by
  obtain ⟨id', q, hrun, hpq, hid'⟩ := (hp.makes_apply hs ht).gives hbelow
  refine ⟨id', q, hrun, hpq, ?_⟩
  have haddress : q.isAddressOnly id' = .ok (t.replace f).isGeneric := addressOnlyTo_of_treeTo hid'
  rw [haddress]
  -- what the replacement of a parameter of the type stands for
  have hreplacement : ∀ index ∈ t.generics, ∃ e, s.replacements[index]? = some e ∧
      p.tree e = .ok (f index) := by
    intro index hindex
    have hget := List.getElem?_eq_getElem (Ty.genericsBelow_iff.mp hbelow index hindex)
    exact ⟨_, hget, hs index _ hget⟩
  cases hg : (t.replace f).isGeneric with
  | true =>
    obtain ⟨index, hindex, hgeneric⟩ := (Ty.isGeneric_replace f t).mp hg
    obtain ⟨e, he, htree⟩ := hreplacement index hindex
    refine .inl ⟨rfl, index, hindex, e, he, ?_⟩
    rw [← hgeneric]
    exact addressOnlyTo_of_treeTo htree
  | false =>
    refine .inr ⟨rfl, fun index => (f index).scalars, fun index hindex => ?_, ?_⟩
    · obtain ⟨e, he, htree⟩ := hreplacement index hindex
      have hplain : (f index).isGeneric = false := by
        rw [← Bool.not_eq_true]
        intro hgeneric
        rw [(Ty.isGeneric_replace f t).mpr ⟨index, hindex, hgeneric⟩] at hg
        cases hg
      refine ⟨e, he, ?_, componentsTo_of_treeTo htree hplain⟩
      rw [← hplain]
      exact addressOnlyTo_of_treeTo htree
    · rw [← Ty.scalars_replace]
      exact componentsTo_of_treeTo hid' hg

theorem Proper.known {p : Pool} (hp : p.Proper) {m : Method}
    (h : ∀ type ∈ m.signature.types, type < p.size) : m.Known p := by
  simp only [Signature.types, List.mem_cons, List.mem_append, Option.mem_toList] at h
  exact ⟨fun type ht => hp.exists_tree (h type (.inr (.inl ht))),
    hp.exists_tree (h _ (.inr (.inr (.inl rfl)))),
    fun type ht => hp.exists_tree (h type (.inr (.inr (.inr ht))))⟩

/-- In every pool in which types are interned after their elements, the walks agree, and a
substitution changes what they find at the parameters only. -/
theorem Grows.flattens {p : Pool} (h : Pool.new.Grows p) : p.Flattens := by
  have hp : p.Proper := h.proper proper_new
  exact {
    components := fun _ hid => by
      obtain ⟨t, ht⟩ := hp.exists_tree hid
      exact ⟨t, ht, components_of_tree ht⟩
    passing := fun l _ hid => by
      obtain ⟨t, ht⟩ := hp.exists_tree hid
      exact ⟨_, Layout.passing_of_tree ht⟩
    lower := fun l m hm =>
      ⟨Layout.lower_or_overflow (hp.known hm), fun hl => Layout.exists_lower hl (hp.known hm)⟩
    replaced := fun s id t hs ht hbelow => by
      obtain ⟨f, hf⟩ := hs.exists_denotes hp
      exact hp.flatten_apply hf ht hbelow }

end Pool

namespace Pairs

/-- The walk stops at the first parameter.  A unit type in its place leaves no scalar behind. -/
theorem flattens_pool :
    Pool.new.Grows pool ∧ pool.tree 11 = .ok type ∧
      (∃ e, pool.shape e = .ok (.generic 0) ∧
        pool.components 11 = Attempt.abi (.addressOnly e)) ∧
      ∃ id q, (⟨[0, 7]⟩ : Subst).apply 11 pool = .ok id q ∧
        q.components id = .ok [.ptr, .i32] := by
  have hlaws := grows_pool.flattens
  have htype : pool.tree 11 = .ok type := rfl
  refine ⟨grows_pool, htype, ?_, ?_⟩
  · obtain ⟨t, ht, ⟨hplain, -⟩ | ⟨-, e, index, hfirst, hshape, hcomponents⟩⟩ :=
      hlaws.components 11 (by decide)
    · cases hplain
    · cases ht
      cases hfirst
      exact ⟨e, hshape, hcomponents⟩
  · obtain ⟨id, q, hrun, -, ⟨-, index, hindex, e, he, hgeneric⟩ | ⟨-, g, hg, hcomponents⟩⟩ :=
      hlaws.replaced ⟨[0, 7]⟩ 11 type (by decide) htype (by decide)
    · obtain rfl | rfl : index = 0 ∨ index = 1 := by
        simpa [type, Ty.generics, Ty.genericsOf] using hindex
      · cases he
        cases hgeneric
      · cases he
        cases hgeneric
    · obtain ⟨_, he, -, hfirst⟩ := hg 0 (by decide)
      cases he
      replace hfirst : [] = g 0 := Except.ok.inj hfirst
      obtain ⟨_, he, -, hsecond⟩ := hg 1 (by decide)
      cases he
      replace hsecond : [.ptr] = g 1 := Except.ok.inj hsecond
      refine ⟨id, q, hrun, ?_⟩
      rw [hcomponents, type, Ty.flatten_tuple, List.flatMap_cons, List.flatMap_singleton,
        Ty.flatten_tuple, List.flatMap_cons, List.flatMap_singleton]
      simp only [Ty.flatten, ← hfirst, ← hsecond]
      rfl

end Pairs

end Dispatch
