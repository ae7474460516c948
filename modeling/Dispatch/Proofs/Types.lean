import Dispatch.Module
import Dispatch.Proofs.Step

/-!
# Types in a pool that grows

Generating code interns types, so the pool grows between the moment a method is
declared and the moment its thunk runs.  Everything that depends on a type depends on
the type written out in full, and that does not change when a pool grows.

A thunk substitutes each generic parameter of its method for itself.  In a pool
without repetitions that changes nothing.

## Main definitions

* `Ty.scalars` — the scalars of a type, in field order.
* `Pool.Extends` — a pool with more types at its end.
* `Method.Known` — the types of a method belong to a pool.

## Main results

* `Layout.passing_of_tree` — how a value is passed follows from its type in full.
* `Method.Known.lower_eq`, `Method.Known.entitySymbol_eq` — native signatures and
  symbols stay when the pool grows.
* `Module.ends_planThunk` — a thunk forwards with the signature that it is called with.
-/

namespace Dispatch

/-! ### Attempts -/

/-- Answers and faults can be compared. -/
instance decidableEqExcept {ε α : Type} [DecidableEq ε] [DecidableEq α] : DecidableEq (Except ε α)
  | .ok a, .ok b => decidable_of_iff (a = b) (by rw [Except.ok.injEq])
  | .error e, .error f => decidable_of_iff (e = f) (by rw [Except.error.injEq])
  | .ok _, .error _ => isFalse nofun
  | .error _, .ok _ => isFalse nofun

namespace Attempt

variable {α β γ : Type} {f : α → Attempt β} {g : α → Attempt γ}

@[simp] theorem ok_bind (a : α) (f : α → Attempt β) : (Except.ok a >>= f : Attempt β) = f a := rfl

@[simp] theorem error_bind (e : Fault) (f : α → Attempt β) :
    (Except.error e >>= f : Attempt β) = .error e := rfl

@[simp] theorem pure_eq (a : α) : (pure a : Attempt α) = .ok a := rfl

theorem exists_ok {x : Attempt α} (h : x.isOk = true) : ∃ a, x = .ok a := by
  cases x with
  | ok a => exact ⟨a, rfl⟩
  | error fault => cases h

theorem bind_eq_ok {x : Attempt α} {f : α → Attempt β} {b : β} :
    (x >>= f) = .ok b ↔ ∃ a, x = .ok a ∧ f a = .ok b := by
  cases x with
  | error e => simp
  | ok a => simp

theorem bind_eq_error {x : Attempt α} {f : α → Attempt β} {fault : Fault} :
    (x >>= f) = .error fault ↔ x = .error fault ∨ ∃ a, x = .ok a ∧ f a = .error fault := by
  cases x with
  | error e => simp
  | ok a => simp

theorem map_eq_ok {x : Attempt α} {f : α → β} {b : β} :
    (f <$> x) = .ok b ↔ ∃ a, x = .ok a ∧ f a = b := by
  cases x with
  | error e => simp [Functor.map, Except.map]
  | ok a => simp [Functor.map, Except.map]

theorem orTrap_eq_ok {x : Attempt α} {task : Task} {a : α} :
    x.orTrap task = .ok a ↔ x = .ok a := by
  unfold orTrap
  split <;> simp

theorem onMachine_eq_ok {x : Attempt α} {a : α} : x.onMachine = .ok a ↔ x = .ok a := by
  unfold onMachine
  split <;> simp

/-- What succeeds for every element of a list succeeds for the list. -/
theorem mapM_ok {h : α → β} {l : List α} (hf : ∀ x ∈ l, f x = .ok (h x)) :
    l.mapM f = .ok (l.map h) := by
  induction l with
  | nil => rfl
  | cons x rest ih =>
    rw [List.mapM_cons, hf x List.mem_cons_self,
      ih fun y hy => hf y (List.mem_cons_of_mem _ hy)]
    rfl

theorem mapM_cons_eq_ok {x : α} {l : List α} {ys : List β} :
    (x :: l).mapM f = .ok ys ↔
      ∃ y rest, f x = .ok y ∧ l.mapM f = .ok rest ∧ ys = y :: rest := by
  rw [List.mapM_cons]
  simp only [bind_eq_ok, pure_eq, Except.ok.injEq]
  constructor
  · rintro ⟨y, hy, rest, hrest, rfl⟩
    exact ⟨y, rest, hy, hrest, rfl⟩
  · rintro ⟨y, rest, hy, hrest, rfl⟩
    exact ⟨y, hy, rest, hrest, rfl⟩

theorem mapM_congr {f g : α → Attempt β} {l : List α} (h : ∀ x ∈ l, f x = g x) :
    l.mapM f = l.mapM g := by
  induction l with
  | nil => rfl
  | cons x rest ih =>
    rw [List.mapM_cons, List.mapM_cons, h x List.mem_cons_self,
      ih fun y hy => h y (List.mem_cons_of_mem _ hy)]

theorem exists_mapM_ok {l : List α} (h : ∀ x ∈ l, ∃ y, f x = .ok y) :
    ∃ ys, l.mapM f = .ok ys := by
  induction l with
  | nil => exact ⟨[], rfl⟩
  | cons x rest ih =>
    obtain ⟨y, hy⟩ := h x List.mem_cons_self
    obtain ⟨ys, hys⟩ := ih fun x' hx' => h x' (List.mem_cons_of_mem _ hx')
    exact ⟨y :: ys, mapM_cons_eq_ok.mpr ⟨y, ys, hy, hys, rfl⟩⟩

/-- The results of a list of attempts, one by one. -/
theorem mem_of_mapM {l : List α} {ys : List β} (h : l.mapM f = .ok ys) :
    ∀ x ∈ l, ∃ y ∈ ys, f x = .ok y := by
  induction l generalizing ys with
  | nil => simp
  | cons x rest ih =>
    obtain ⟨y, ys', hy, hrest, rfl⟩ := mapM_cons_eq_ok.mp h
    intro x' hx'
    rcases List.mem_cons.mp hx' with rfl | hx'
    · exact ⟨y, List.mem_cons_self, hy⟩
    · obtain ⟨y', hmem, hy'⟩ := ih hrest x' hx'
      exact ⟨y', List.mem_cons_of_mem _ hmem, hy'⟩

theorem mem_of_mem_mapM {l : List α} {ys : List β} (h : l.mapM f = .ok ys) :
    ∀ y ∈ ys, ∃ x ∈ l, f x = .ok y := by
  induction l generalizing ys with
  | nil =>
    cases h
    simp
  | cons x rest ih =>
    obtain ⟨y, ys', hy, hrest, rfl⟩ := mapM_cons_eq_ok.mp h
    intro y' hy'
    rcases List.mem_cons.mp hy' with rfl | hy'
    · exact ⟨x, List.mem_cons_self, hy⟩
    · obtain ⟨x', hx', h⟩ := ih hrest y' hy'
      exact ⟨x', List.mem_cons_of_mem _ hx', h⟩

/-- A second walk over the same list that succeeds wherever the first one did. -/
theorem mapM_mono {f : α → Attempt β} {g : α → Attempt γ} {k : β → γ} {l : List α} {ys : List β}
    (h : l.mapM f = .ok ys) (hfg : ∀ x ∈ l, ∀ y, f x = .ok y → g x = .ok (k y)) :
    l.mapM g = .ok (ys.map k) := by
  induction l generalizing ys with
  | nil =>
    cases h
    rfl
  | cons x rest ih =>
    obtain ⟨y, ys', hy, hrest, rfl⟩ := mapM_cons_eq_ok.mp h
    rw [mapM_cons_eq_ok]
    exact ⟨k y, ys'.map k, hfg x List.mem_cons_self y hy,
      ih hrest fun x' hx' => hfg x' (List.mem_cons_of_mem _ hx'), rfl⟩

end Attempt

open Attempt

/-! ### Types written out in full -/

namespace Ty

mutual

/-- The scalars of a type, in field order; a generic parameter has none. -/
def scalars : Ty → List Scalar
  | .unit => []
  | .scalar kind => [kind]
  | .tuple elements => scalarsOf elements
  | .object _ => [.ptr]
  | .metatype _ => [.ptr]
  | .protocolSelf _ => [.ptr]
  | .generic _ => []

/-- The scalars of several types, one type after the other. -/
def scalarsOf : List Ty → List Scalar
  | [] => []
  | t :: rest => t.scalars ++ scalarsOf rest

end

theorem scalarsOf_eq_flatten (ts : List Ty) : scalarsOf ts = (ts.map scalars).flatten := by
  induction ts with
  | nil => rfl
  | cons t rest ih => simp [scalarsOf, ih]

/-- Does the type contain a generic parameter? -/
def isGeneric (t : Ty) : Bool := t.maxGeneric.isSome

theorem isSome_maxGenericOf (ts : List Ty) : (maxGenericOf ts).isSome = ts.any isGeneric := by
  induction ts with
  | nil => rfl
  | cons t rest ih =>
    rw [List.any_cons, ← ih, maxGenericOf, isGeneric]
    cases t.maxGeneric <;> cases maxGenericOf rest <;> rfl

/-- Every generic parameter in the type is one of the first `count`. -/
def GenericsBelow (count : Nat) (t : Ty) : Prop := ∀ index ∈ t.maxGeneric, index < count

instance (count : Nat) (t : Ty) : Decidable (t.GenericsBelow count) :=
  inferInstanceAs (Decidable (∀ index ∈ t.maxGeneric, index < count))

theorem le_maxGenericOf {ts : List Ty} {t : Ty} (ht : t ∈ ts) {index : Nat}
    (hi : index ∈ t.maxGeneric) : ∃ highest ∈ maxGenericOf ts, index ≤ highest := by
  induction ts with
  | nil => cases ht
  | cons t' rest ih =>
    rw [maxGenericOf]
    rcases List.mem_cons.mp ht with rfl | ht
    · rw [Option.mem_def.mp hi]
      cases maxGenericOf rest with
      | none => exact ⟨index, rfl, Nat.le_refl _⟩
      | some other => exact ⟨max index other, rfl, Nat.le_max_left _ _⟩
    · obtain ⟨highest, hhighest, hle⟩ := ih ht
      rw [Option.mem_def.mp hhighest]
      cases t'.maxGeneric with
      | none => exact ⟨highest, rfl, hle⟩
      | some other => exact ⟨max other highest, rfl, Nat.le_trans hle (Nat.le_max_right _ _)⟩

theorem GenericsBelow.element {count : Nat} {ts : List Ty} (h : GenericsBelow count (.tuple ts))
    {t : Ty} (ht : t ∈ ts) : t.GenericsBelow count := fun index hi => by
  obtain ⟨highest, hhighest, hle⟩ := le_maxGenericOf ht hi
  exact Nat.lt_of_le_of_lt hle (h highest (by rw [maxGeneric]; exact hhighest))

end Ty

namespace Pool

/-- The pool `q` is `p` with more types at its end. -/
def Extends (p q : Pool) : Prop := p.shapes <+: q.shapes

variable {p q r : Pool} {id : TypeId} {depth depth' : Nat} {t : Ty}

theorem Extends.refl (p : Pool) : p.Extends p := List.prefix_refl _

theorem Extends.trans (h : p.Extends q) (h' : q.Extends r) : p.Extends r :=
  List.IsPrefix.trans h h'

theorem shape_eq_ok {s : Shape} : p.shape id = .ok s ↔ p.shapes[id]? = some s := by
  unfold shape
  split
  · next s' hs => simp [hs]
  · next hs => simp [hs, Attempt.trap]

theorem Extends.shape (h : p.Extends q) {s : Shape} (hs : p.shape id = .ok s) :
    q.shape id = .ok s := by
  rw [shape_eq_ok] at *
  obtain ⟨more, hmore⟩ := h
  rw [← hmore, List.getElem?_append_left (List.getElem?_eq_some_iff.mp hs).1]
  exact hs

theorem Extends.maxDepth (h : p.Extends q) : p.maxDepth ≤ q.maxDepth := by
  have := h.length_le
  simp only [Pool.maxDepth, Pool.size]
  omega

/-- A type written out is written out the same in a larger pool, and to a larger
depth. -/
theorem Extends.treeTo (h : p.Extends q) :
    ∀ {depth depth' : Nat} {id : TypeId} {t : Ty}, depth ≤ depth' →
      p.treeTo depth id = .ok t → q.treeTo depth' id = .ok t := by
  intro depth
  induction depth with
  | zero =>
    intro depth' id t _ ht
    simp [Pool.treeTo, Attempt.trap] at ht
  | succ depth ih =>
    intro depth' id t hle ht
    obtain ⟨depth', rfl⟩ : ∃ d, depth' = d + 1 := ⟨depth' - 1, by omega⟩
    rw [Pool.treeTo] at ht ⊢
    obtain ⟨s, hs, ht⟩ := bind_eq_ok.mp ht
    rw [h.shape hs, ok_bind]
    cases s with
    | tuple elements =>
      obtain ⟨ts, hts, ht⟩ := bind_eq_ok.mp ht
      have hq : elements.mapM (q.treeTo depth') = .ok (ts.map fun t => t) :=
        mapM_mono hts fun e _ t' ht' => ih (by omega) ht'
      rw [List.map_id'] at hq
      simp only [hq, ok_bind, ht]
    | _ => exact ht

theorem Extends.tree (h : p.Extends q) (ht : p.tree id = .ok t) : q.tree id = .ok t :=
  h.treeTo h.maxDepth ht

/-- The walk for a generic parameter, told from the type in full. -/
theorem addressOnlyTo_of_treeTo :
    ∀ {depth : Nat} {id : TypeId} {t : Ty}, p.treeTo depth id = .ok t →
      p.addressOnlyTo depth id = .ok t.isGeneric := by
  intro depth
  induction depth with
  | zero =>
    intro id t ht
    simp [treeTo, Attempt.trap] at ht
  | succ depth ih =>
    intro id t ht
    rw [treeTo] at ht
    rw [addressOnlyTo]
    obtain ⟨s, hs, ht⟩ := bind_eq_ok.mp ht
    rw [hs, ok_bind]
    cases s with
    | tuple elements =>
      obtain ⟨ts, hts, ht⟩ := bind_eq_ok.mp ht
      cases ht
      have hany : ∀ (es : List TypeId) (ts : List Ty), es.mapM (p.treeTo depth) = .ok ts →
          es.anyM (p.addressOnlyTo depth) = .ok (ts.any Ty.isGeneric) := by
        intro es
        induction es with
        | nil =>
          intro ts h
          cases h
          rfl
        | cons e es ihes =>
          intro ts h
          obtain ⟨t, rest, ht, hrest, rfl⟩ := mapM_cons_eq_ok.mp h
          rw [List.anyM, ih ht, ok_bind, List.any_cons]
          cases t.isGeneric with
          | true => rfl
          | false => exact ihes rest hrest
      simp only [hany elements ts hts, Ty.isGeneric, Ty.maxGeneric, Ty.isSome_maxGenericOf]
    | _ =>
      cases ht
      rfl

theorem treeTo_generic {index : Nat} (hs : p.shape id = .ok (.generic index))
    (ht : p.treeTo depth id = .ok t) : t = .generic index := by
  cases depth with
  | zero => cases ht
  | succ depth =>
    rw [treeTo, hs] at ht
    cases ht
    rfl

theorem treeTo_tuple {elements : List TypeId} (hs : p.shape id = .ok (.tuple elements))
    (ht : p.treeTo depth id = .ok t) :
    ∃ depth' ts, depth = depth' + 1 ∧ t = .tuple ts ∧
      elements.mapM (p.treeTo depth') = .ok ts := by
  cases depth with
  | zero => cases ht
  | succ depth =>
    rw [treeTo, hs, ok_bind] at ht
    obtain ⟨ts, hts, ht⟩ := bind_eq_ok.mp ht
    cases ht
    exact ⟨depth, ts, rfl, rfl, hts⟩

/-- The scalars of a type without generic parameters, told from the type in full. -/
theorem componentsTo_of_treeTo :
    ∀ {depth : Nat} {id : TypeId} {t : Ty}, p.treeTo depth id = .ok t → t.isGeneric = false →
      p.componentsTo depth id = .ok t.scalars := by
  intro depth
  induction depth with
  | zero =>
    intro id t ht
    simp [treeTo, Attempt.trap] at ht
  | succ depth ih =>
    intro id t ht hg
    rw [treeTo] at ht
    rw [componentsTo]
    obtain ⟨s, hs, ht⟩ := bind_eq_ok.mp ht
    rw [hs, ok_bind]
    cases s with
    | tuple elements =>
      obtain ⟨ts, hts, ht⟩ := bind_eq_ok.mp ht
      cases ht
      have hall : ∀ t ∈ ts, t.isGeneric = false := by
        rw [Ty.isGeneric, Ty.maxGeneric, Ty.isSome_maxGenericOf, List.any_eq_false] at hg
        intro t ht
        simpa using hg t ht
      have hcomps : ∀ (es : List TypeId) (ts : List Ty), es.mapM (p.treeTo depth) = .ok ts →
          (∀ t ∈ ts, t.isGeneric = false) →
          es.mapM (p.componentsTo depth) = .ok (ts.map Ty.scalars) := by
        intro es
        induction es with
        | nil =>
          intro ts h _
          cases h
          rfl
        | cons e es ihes =>
          intro ts h hts
          obtain ⟨t, rest, ht, hrest, rfl⟩ := mapM_cons_eq_ok.mp h
          rw [mapM_cons_eq_ok]
          exact ⟨t.scalars, rest.map Ty.scalars, ih ht (hts t List.mem_cons_self),
            ihes rest hrest fun t' ht' => hts t' (List.mem_cons_of_mem _ ht'), rfl⟩
      simp only [hcomps elements ts hts hall, ok_bind, Ty.scalars, Ty.scalarsOf_eq_flatten]
      rfl
    | generic index =>
      cases ht
      simp [Ty.isGeneric, Ty.maxGeneric] at hg
    | _ =>
      cases ht
      rfl

end Pool

/-! ### Passing and native signatures -/

namespace Layout

/-- How values of a type written out in full are passed. -/
def passingOf (l : Layout) (t : Ty) : Passing :=
  if t.isGeneric then .address
  else
    let schema := Schema.ofComponents t.scalars l.maxDirectWords
    if schema.isIndirect then .indirect schema else .direct schema

variable {l : Layout} {p q : Pool} {id : TypeId} {t : Ty}

theorem schema_of_tree (ht : p.tree id = .ok t) (hg : t.isGeneric = false) :
    l.schema p id = .ok (.ofComponents t.scalars l.maxDirectWords) := by
  rw [schema, Pool.components, Pool.componentsTo_of_treeTo ht hg, ok_bind]
  rfl

/-- How a value is passed follows from its type in full. -/
theorem passing_of_tree (ht : p.tree id = .ok t) : l.passing p id = .ok (l.passingOf t) := by
  have hao : p.isAddressOnly id = .ok t.isGeneric := Pool.addressOnlyTo_of_treeTo ht
  rw [passing, hao, ok_bind, passingOf]
  cases hg : t.isGeneric with
  | true => rfl
  | false =>
    simp only [Bool.false_eq_true, if_false, schema_of_tree ht hg, ok_bind]
    rfl

theorem frameArgs_congr {types : List TypeId}
    (h : ∀ type ∈ types, l.passing q type = l.passing p type) :
    l.frameArgs q types = l.frameArgs p types := by
  induction types with
  | nil => rfl
  | cons type rest ih =>
    rw [frameArgs, frameArgs, h type List.mem_cons_self,
      ih fun t ht => h t (List.mem_cons_of_mem _ ht)]

end Layout

namespace Method

variable {l : Layout} {p q : Pool} {m : Method}

/-- The types of the method's parameters, of its result and of its error belong to
the pool. -/
structure Known (p : Pool) (m : Method) : Prop where
  params : ∀ type ∈ m.signature.params, ∃ t, p.tree type = .ok t
  result : ∃ t, p.tree m.signature.result = .ok t
  error : ∀ type ∈ m.signature.error, ∃ t, p.tree type = .ok t

/-- A method that has a symbol has types. -/
theorem known_of_entitySymbol {entity : Entity} {symbol : String}
    (h : m.entitySymbol p entity = .ok symbol) : m.Known p := by
  obtain ⟨code, hcode, -⟩ := bind_eq_ok.mp h
  obtain ⟨params, hparams, hcode⟩ := bind_eq_ok.mp hcode
  obtain ⟨result, hresult, hcode⟩ := bind_eq_ok.mp hcode
  obtain ⟨error, herror, -⟩ := bind_eq_ok.mp hcode
  refine ⟨fun type ht => ?_, ⟨result, hresult⟩, fun type ht => ?_⟩
  · obtain ⟨t, -, ht⟩ := mem_of_mapM hparams type ht
    exact ⟨t, ht⟩
  · rw [Option.mem_def] at ht
    rw [ht] at herror
    obtain ⟨t, ht, -⟩ := map_eq_ok.mp herror
    exact ⟨t, ht⟩

theorem Known.exists_signatureCode (h : m.Known p) : ∃ code, m.signatureCode p = .ok code := by
  obtain ⟨params, hparams⟩ := exists_mapM_ok h.params
  obtain ⟨result, hresult⟩ := h.result
  have herror : ∃ error, m.signature.error.mapM p.tree = .ok error := by
    cases he : m.signature.error with
    | none => exact ⟨none, rfl⟩
    | some type =>
      obtain ⟨t, ht⟩ := h.error type he
      exact ⟨some t, by rw [Option.mapM_some, ht]; rfl⟩
  obtain ⟨error, herror⟩ := herror
  rw [signatureCode, hparams, hresult, herror]
  exact ⟨_, rfl⟩

/-- A method that has types has every symbol. -/
theorem Known.exists_entitySymbol (h : m.Known p) (entity : Entity) :
    ∃ symbol, m.entitySymbol p entity = .ok symbol := by
  obtain ⟨code, hcode⟩ := h.exists_signatureCode
  rw [entitySymbol, hcode]
  exact ⟨_, rfl⟩

theorem Known.exists_implementationSymbol (h : m.Known p) (implementor : String) :
    ∃ symbol, m.implementationSymbol p implementor = .ok symbol := by
  obtain ⟨code, hcode⟩ := h.exists_signatureCode
  rw [implementationSymbol, hcode]
  exact ⟨_, rfl⟩

theorem Known.extends (h : m.Known p) (hq : p.Extends q) : m.Known q where
  params type ht := (h.params type ht).imp fun _ => hq.tree
  result := h.result.imp fun _ => hq.tree
  error type ht := (h.error type ht).imp fun _ => hq.tree

/-- The types in full, and with them the symbols of a method, stay when the pool
grows. -/
theorem Known.entitySymbol_eq (h : m.Known p) (hq : p.Extends q) (entity : Entity) :
    m.entitySymbol q entity = m.entitySymbol p entity := by
  have hparams : m.signature.params.mapM q.tree = m.signature.params.mapM p.tree := by
    refine mapM_congr fun type ht => ?_
    obtain ⟨t, ht⟩ := h.params type ht
    rw [ht, hq.tree ht]
  have hresult : q.tree m.signature.result = p.tree m.signature.result := by
    obtain ⟨t, ht⟩ := h.result
    rw [ht, hq.tree ht]
  have herror : m.signature.error.mapM q.tree = m.signature.error.mapM p.tree := by
    cases he : m.signature.error with
    | none => rfl
    | some type =>
      obtain ⟨t, ht⟩ := h.error type he
      rw [Option.mapM_some, Option.mapM_some, ht, hq.tree ht]
  rw [entitySymbol, entitySymbol, signatureCode, signatureCode, hparams, hresult, herror]

theorem Known.passing_eq (h : m.Known p) (hq : p.Extends q) {type : TypeId}
    (ht : type ∈ m.signature.params ∨ type = m.signature.result) :
    l.passing q type = l.passing p type := by
  have htree : ∃ t, p.tree type = .ok t := by
    rcases ht with ht | rfl
    · exact h.params type ht
    · exact h.result
  obtain ⟨t, ht⟩ := htree
  rw [Layout.passing_of_tree ht, Layout.passing_of_tree (hq.tree ht)]

/-- The native signature of a method stays when the pool grows. -/
theorem Known.lower_eq (h : m.Known p) (hq : p.Extends q) : l.lower q m = l.lower p m := by
  have hparams : ∀ type ∈ m.signature.params, l.passing q type = l.passing p type :=
    fun type ht => h.passing_eq hq (Or.inl ht)
  have hresult : l.passing q m.signature.result = l.passing p m.signature.result :=
    h.passing_eq hq (Or.inr rfl)
  have hcarriers : m.signature.params.mapM (l.carrier q) = m.signature.params.mapM (l.carrier p) :=
    mapM_congr fun type ht => by rw [Layout.carrier, Layout.carrier, hparams type ht]
  have hframe : l.frame q m = l.frame p m := by
    rw [Layout.frame, Layout.frame, Layout.standardFrame, Layout.standardFrame, Layout.layOut,
      Layout.layOut, hresult, Layout.frameArgs_congr hparams]
  rw [Layout.lower, Layout.lower, hcarriers, hframe, Layout.carrier, Layout.carrier, hresult]

end Method

/-! ### Forwarding substitutions -/

/-- Every type of a signature. -/
def Signature.types (s : Signature) : List TypeId :=
  s.selfType :: (s.params ++ s.result :: s.error.toList)

namespace Pool

variable {p : Pool}

/-- Each type is in the pool once. -/
def Distinct (p : Pool) : Prop := p.shapes.Nodup

/-- Interning finds a shape that is there, and adds one that is not. -/
theorem intern_cases (p : Pool) (s : Shape) :
    (∃ id, p.find? s = some id ∧ intern s p = .ok id p) ∨
      ∃ h : p.find? s = none, intern s p = .ok p.size (p.add s h) := by
  obtain hf | ⟨id, hf⟩ := Option.eq_none_or_eq_some (p.find? s)
  case inl =>
    refine .inr ⟨hf, ?_⟩
    have hintern : intern s p = enter s p := by rw [intern, hf]
    rw [hintern]
    unfold enter
    split
    · next id hid => exact absurd (hf.symm.trans hid) (Option.some_ne_none id).symm
    · rfl
  case inr => exact .inl ⟨id, hf, by rw [intern, hf]⟩

theorem intern_of_mem (hp : p.Distinct) {s : Shape} {id : TypeId} (h : p.shapes[id]? = some s) :
    intern s p = .ok id p := by
  obtain ⟨hlt, hs⟩ := List.getElem?_eq_some_iff.mp h
  have hfind : p.find? s = some id := by
    rw [find?_eq, List.idxOf?_eq_some_iff]
    refine ⟨hlt, hs, ?_⟩
    intro j hj heq
    exact (List.pairwise_iff_getElem.mp hp) j id (by omega) hlt hj (heq.trans hs.symm)
  rw [intern, hfind]

/-- Interning extends the pool, and the answer is a type of that shape. -/
theorem ends_intern (hp : p.Distinct) (s : Shape) :
    Step.Ends (intern s) p
      (fun id q => p.Extends q ∧ q.Distinct ∧ q.shapes[id]? = some s) fun _ _ => False := by
  obtain ⟨id, hf, hrun⟩ | ⟨hf, hrun⟩ := intern_cases p s
  · refine Step.ends_of_ok hrun ⟨.refl p, hp, ?_⟩
    rw [find?_eq, List.idxOf?_eq_some_iff] at hf
    obtain ⟨hlt, hs, -⟩ := hf
    exact List.getElem?_eq_some_iff.mpr ⟨hlt, hs⟩
  · refine Step.ends_of_ok hrun ⟨List.prefix_append _ _, ?_, by simp [size]⟩
    rw [find?_eq, List.idxOf?_eq_none_iff] at hf
    rw [Distinct, shapes_add, List.nodup_append]
    refine ⟨hp, by simp, ?_⟩
    rintro a ha b hb rfl
    rw [List.mem_singleton] at hb
    exact hf (hb ▸ ha)

end Pool

namespace Subst

variable {s : Subst} {p : Pool}

/-- The substitution maps parameters to themselves, as types of the pool. -/
def IsIdentity (s : Subst) (p : Pool) : Prop :=
  ∀ (index : Nat) (id : TypeId), s.replacements[index]? = some id →
    p.shapes[id]? = some (Shape.generic index)

theorem ends_internGenerics (indices : List Nat) :
    ∀ {p : Pool}, p.Distinct →
      Step.Ends (indices.mapM fun index => Pool.intern (.generic index)) p
        (fun ids q => p.Extends q ∧ q.Distinct ∧ ids.length = indices.length ∧
          ∀ (k : Nat) (id : TypeId), ids[k]? = some id →
            ∃ index, indices[k]? = some index ∧ q.shapes[id]? = some (Shape.generic index))
        fun _ _ => False := by
  induction indices with
  | nil =>
    intro p hp
    rw [List.mapM_nil]
    exact ⟨.refl p, hp, rfl, by simp⟩
  | cons index rest ih =>
    intro p hp
    rw [List.mapM_cons, Step.ends_bind]
    refine (Pool.ends_intern hp _).imp (fun id q hq => ?_) fun _ _ h => h
    obtain ⟨hpq, hq, hid⟩ := hq
    rw [Step.ends_bind]
    refine (ih hq).imp (fun ids r hr => ?_) fun _ _ h => h
    obtain ⟨hqr, hr, hlen, hids⟩ := hr
    rw [Step.ends_pure]
    refine ⟨hpq.trans hqr, hr, by simp [hlen], ?_⟩
    intro k id' hk
    cases k with
    | zero =>
      simp only [List.getElem?_cons_zero, Option.some.injEq] at hk
      subst hk
      exact ⟨index, rfl, Pool.shape_eq_ok.mp (hqr.shape (Pool.shape_eq_ok.mpr hid))⟩
    | succ k => exact hids k id' (by simpa using hk)

theorem ends_forwarding (hp : p.Distinct) (count : Nat) :
    Step.Ends (forwarding count) p
      (fun s q => p.Extends q ∧ q.Distinct ∧ s.IsIdentity q ∧ s.replacements.length = count)
      fun _ _ => False := by
  rw [forwarding, Step.ends_bind]
  refine (ends_internGenerics (List.range count) hp).imp (fun ids q hq => ?_) fun _ _ h => h
  obtain ⟨hpq, hq, hlen, hids⟩ := hq
  refine ⟨hpq, hq, fun index id hid => ?_, by rw [hlen, List.length_range]⟩
  obtain ⟨index', hindex, hshape⟩ := hids index id hid
  obtain ⟨_, hindex⟩ := List.getElem?_eq_some_iff.mp hindex
  rw [List.getElem_range] at hindex
  rw [hshape, hindex]

/-- A list of steps each of which gives its argument back and keeps the state, unless
it fails. -/
theorem ends_mapM_self {σ α : Type} {f : α → Step σ α} {l : List α} {t : σ}
    {E : α → σ → Prop}
    (h : ∀ x ∈ l, Step.Ends (f x) t (fun y t' => y = x ∧ t' = t) fun _ t' => E x t') :
    Step.Ends (l.mapM f) t (fun ys t' => ys = l ∧ t' = t) fun _ t' => ∃ x ∈ l, E x t' := by
  induction l with
  | nil =>
    rw [List.mapM_nil]
    exact ⟨rfl, rfl⟩
  | cons x rest ih =>
    rw [List.mapM_cons, Step.ends_bind]
    refine (h x List.mem_cons_self).imp (fun y t' hy => ?_) fun _ _ h => ⟨x, List.mem_cons_self, h⟩
    obtain ⟨rfl, rfl⟩ := hy
    rw [Step.ends_bind]
    refine (ih fun y hy => h y (List.mem_cons_of_mem _ hy)).imp (fun ys t'' hys => ?_) ?_
    · obtain ⟨rfl, rfl⟩ := hys
      exact ⟨rfl, rfl⟩
    · rintro _ t'' ⟨x, hx, hE⟩
      exact ⟨x, List.mem_cons_of_mem _ hx, hE⟩

/-- Replacing parameters by themselves gives the type back and keeps the pool.  It
fails only for types that are not known or have a parameter without a replacement. -/
theorem IsIdentity.ends_applyTo (hs : s.IsIdentity p) (hp : p.Distinct) :
    ∀ (depth : Nat) (id : TypeId),
      Step.Ends (s.applyTo depth id) p (fun id' q => id' = id ∧ q = p) fun _ q => q = p ∧
        ∀ d t, d ≤ depth → p.treeTo d id = .ok t → ¬ t.GenericsBelow s.replacements.length := by
  intro depth
  induction depth with
  | zero =>
    refine fun id => ⟨rfl, fun d t hd ht => ?_⟩
    obtain rfl : d = 0 := by omega
    cases ht
  | succ depth ih =>
    intro id
    rw [applyTo, Step.ends_bind, Step.ends_get, Step.ends_bind, Step.ends_liftM]
    refine ⟨fun shape hshape => ?_, fun fault hshape => ⟨rfl, fun d t _ ht => ?_⟩⟩
    · cases shape with
      | generic index =>
        simp only
        cases hr : s.replacements[index]? with
        | none =>
          refine ⟨rfl, fun d t _ ht hbelow => ?_⟩
          obtain rfl := Pool.treeTo_generic hshape ht
          have := hbelow index rfl
          rw [List.getElem?_eq_none_iff] at hr
          omega
        | some id' =>
          -- both ids have the shape of the parameter, and no shape is there twice
          have h1 := Pool.intern_of_mem hp (hs index id' hr)
          have h2 := Pool.intern_of_mem hp (Pool.shape_eq_ok.mp hshape)
          rw [h1] at h2
          cases h2
          exact ⟨rfl, rfl⟩
      | tuple elements =>
        simp only [Step.ends_bind]
        refine (ends_mapM_self fun e _ => ih e).imp (fun es q hes => ?_) ?_
        · obtain ⟨rfl, rfl⟩ := hes
          exact Step.ends_of_ok (Pool.intern_of_mem hp (Pool.shape_eq_ok.mp hshape)) ⟨rfl, rfl⟩
        · rintro _ q ⟨e, he, rfl, hfails⟩
          refine ⟨rfl, fun d t hd ht hbelow => ?_⟩
          obtain ⟨d', ts, rfl, rfl, hts⟩ := Pool.treeTo_tuple hshape ht
          obtain ⟨t', ht', hte⟩ := Attempt.mem_of_mapM hts e he
          exact hfails d' t' (by omega) hte (hbelow.element ht')
      | _ => exact ⟨rfl, rfl⟩
    · cases d with
      | zero => cases ht
      | succ d =>
        rw [Pool.treeTo, hshape] at ht
        cases ht

theorem IsIdentity.ends_apply (hs : s.IsIdentity p) (hp : p.Distinct) (id : TypeId) :
    Step.Ends (s.apply id) p (fun id' q => id' = id ∧ q = p) fun _ q => q = p ∧
      ∀ t, p.tree id = .ok t → ¬ t.GenericsBelow s.replacements.length := by
  rw [apply, Step.ends_bind, Step.ends_get]
  refine (hs.ends_applyTo hp _ id).imp (fun _ _ h => h) fun _ _ h => ⟨h.1, fun t ht => ?_⟩
  exact h.2 _ t (by omega) ht

theorem IsIdentity.ends_substitute (hs : s.IsIdentity p) (hp : p.Distinct) (sig : Signature) :
    Step.Ends (sig.substitute s) p (fun sig' q => sig' = sig ∧ q = p) fun _ q => q = p ∧
      ∃ type ∈ sig.types, ∀ t, p.tree type = .ok t →
        ¬ t.GenericsBelow s.replacements.length := by
  have happly : ∀ type ∈ sig.types, Step.Ends (s.apply type) p (fun id' q => id' = type ∧ q = p)
      fun _ q => q = p ∧ ∃ type ∈ sig.types, ∀ t, p.tree type = .ok t →
        ¬ t.GenericsBelow s.replacements.length := fun type htype =>
    (hs.ends_apply hp type).imp (fun _ _ h => h) fun _ _ h => ⟨h.1, type, htype, h.2⟩
  rw [Signature.substitute, Step.ends_bind]
  refine (happly _ (by simp [Signature.types])).imp (fun self q h => ?_) fun _ _ h => h
  obtain ⟨rfl, rfl⟩ := h
  rw [Step.ends_bind]
  refine (ends_mapM_self fun type htype =>
    happly type (by simp [Signature.types, htype])).imp (fun params q h => ?_) ?_
  rotate_left
  · rintro _ _ ⟨_, _, h⟩
    exact h
  obtain ⟨rfl, rfl⟩ := h
  rw [Step.ends_bind]
  refine (happly _ (by simp [Signature.types])).imp (fun result q h => ?_) fun _ _ h => h
  obtain ⟨rfl, rfl⟩ := h
  rw [Step.ends_bind]
  have herror : Step.Ends (sig.error.mapM s.apply) q (fun error q' => error = sig.error ∧ q' = q)
      fun _ q' => q' = q ∧ ∃ type ∈ sig.types, ∀ t, q.tree type = .ok t →
        ¬ t.GenericsBelow s.replacements.length := by
    cases he : sig.error with
    | none => exact ⟨rfl, rfl⟩
    | some type =>
      rw [Option.mapM_some, Step.ends_map]
      refine (happly type (by simp [Signature.types, he])).imp (fun error q' h => ?_) fun _ _ h => h
      exact ⟨by rw [h.1], h.2⟩
  refine herror.imp (fun error q' h => ?_) fun _ _ h => h
  obtain ⟨rfl, rfl⟩ := h
  exact ⟨rfl, rfl⟩

end Subst

/-- Every type of the method's signature is known, and has no generic parameter but
those of the method. -/
def Method.Closed (p : Pool) (m : Method) : Prop :=
  ∀ type ∈ m.signature.types, ∃ t, p.tree type = .ok t ∧
    t.GenericsBelow m.signature.generics.params

theorem Method.Closed.extends {p q : Pool} {m : Method} (h : m.Closed p) (hq : p.Extends q) :
    m.Closed q := fun type ht =>
  (h type ht).imp fun _ h => ⟨hq.tree h.1, h.2⟩

theorem Method.Closed.known {p : Pool} {m : Method} (h : m.Closed p) : m.Known p := by
  have htree : ∀ type ∈ m.signature.types, ∃ t, p.tree type = .ok t := fun type ht =>
    (h type ht).imp fun _ h => h.1
  simp only [Signature.types, List.mem_cons, List.mem_append, Option.mem_toList] at htree
  exact ⟨fun type ht => htree type (.inr (.inl ht)), htree _ (.inr (.inr (.inl rfl))),
    fun type ht => htree type (.inr (.inr (.inr ht)))⟩

namespace Module

/-- The module `v` is `u`, perhaps with more types. -/
structure Grows (u v : Module) : Prop where
  pool : u.pool.Extends v.pool
  distinct : v.pool.Distinct
  rest : v = { u with pool := v.pool }

/-- A thunk forwards with the signature that it is called with, and planning it does
nothing but intern types. -/
theorem ends_planThunk {u : Module} (hu : u.pool.Distinct) (m : Method) (own : Lowered) :
    Step.Ends (planThunk m own) u
      (fun plan v => plan = { method := m, own, forwarded := own } ∧ u.Grows v)
      fun _ v => u.Grows v ∧ ¬ m.Closed u.pool := by
  rw [planThunk, Step.ends_bind, withPool, Step.ends_zoom]
  refine (Subst.ends_forwarding hu _).imp (fun s q hq => ?_) fun _ _ h => h.elim
  obtain ⟨hpq, hq, hs, hlen⟩ := hq
  have hgrows : u.Grows { u with pool := q } := ⟨hpq, hq, rfl⟩
  rw [Step.ends_bind, withPool, Step.ends_zoom]
  refine (hs.ends_substitute hq m.signature).imp (fun sig r h => ?_) ?_
  · obtain ⟨rfl, rfl⟩ := h
    rw [if_pos rfl]
    exact ⟨rfl, hgrows⟩
  · rintro _ r ⟨rfl, type, htype, hfails⟩
    refine ⟨hgrows, fun hclosed => ?_⟩
    obtain ⟨t, ht, hbelow⟩ := hclosed type htype
    exact hfails t (hpq.tree ht) (hlen ▸ hbelow)

end Module

end Dispatch
