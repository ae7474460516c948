import Dispatch.Proofs.Emission
import Dispatch.Proofs.Thunk.Attached

/-!
# Async function pointers

The caller of an asynchronous thunk allocates the context frame, and may not have the body
of the thunk.  It reads the size of the frame from a global that is there from the
declaration of the thunk on.  Whatever is asked of a module, and in whatever order, that
global says what the layout of the target says, and so does the body once there is one.

Globals are defined at most once, so what has to be shown is that nothing else gets to the
symbol of an async function pointer first: neither the pointer of another thunk, since the
symbols of thunks differ, nor a method descriptor, since its symbol ends in another letter.

## Main definitions

* `Module.ApartIn` — methods whose thunk symbols differ.
* `Module.Recorded` — the globals say what the thunks and descriptors are.
* `Module.Advances` — what every step of generation does.

## Main results

* `Module.advances_declareThunk`, `Module.advances_defineThunk`,
  `Module.advances_declareDescriptor`, `Module.advances_defineLookup` — the steps.
* `Module.Query.advances`, `Module.advances_after` — one request, and any number of them.
* `Module.pointer_records` — async function pointers after any requests.
-/

namespace Dispatch

/-! ### Tables -/

namespace Table

variable {κ υ : Type} [DecidableEq κ] {t : Table κ υ} {k k' : κ} {x y : υ}

theorem get?_insertNew_cases (h : (t.insertNew k x).get? k' = some y) :
    t.get? k' = some y ∨ k' = k ∧ y = x := by
  rw [get?_insertNew] at h
  split at h
  · next heq =>
    subst heq
    cases hold : t.get? k with
    | none =>
      rw [hold] at h
      exact Or.inr ⟨rfl, (Option.some.inj h).symm⟩
    | some z =>
      rw [hold] at h
      exact Or.inl h
  · exact Or.inl h

/-- What a table holds it still holds when something new comes in. -/
theorem get?_insertNew_of_some (h : t.get? k' = some y) : (t.insertNew k x).get? k' = some y := by
  rw [get?_insertNew]
  split
  · next heq =>
    subst heq
    rw [h]
    rfl
  · exact h

end Table

namespace Module

variable {u v v' : Module} {refs : List Method} {m m' : Method}
  {entry : Entry Lowered} {symbol : String} {g : Global} {className : String}

/-- No two of the methods have the same thunk symbol. -/
def ApartIn (p : Pool) (refs : List Method) : Prop :=
  ∀ m ∈ refs, ∀ m' ∈ refs, ∀ symbol, m.thunkSymbol p = .ok symbol →
    m'.thunkSymbol p = .ok symbol → m = m'

/-- Symbols that a method has it keeps. -/
theorem entitySymbol_extends {p q : Pool} {entity : Entity} (hq : p.Extends q)
    (h : m.entitySymbol p entity = .ok symbol) : m.entitySymbol q entity = .ok symbol :=
  ((Method.known_of_entitySymbol h).entitySymbol_eq hq entity).trans h

theorem ApartIn.of_extends {p q : Pool} (h : ApartIn q refs) (hq : p.Extends q) : ApartIn p refs :=
  fun m hm m' hm' symbol hsymbol hsymbol' =>
    h m hm m' hm' symbol (entitySymbol_extends hq hsymbol) (entitySymbol_extends hq hsymbol')

/-! ### What globals say -/

/-- An entry of the registry of thunks: the symbol and the native signature of the method,
and a body, if there is one, that attaches the frame of the signature. -/
structure IsDeclared (v : Module) (m : Method) (entry : Entry Lowered) : Prop where
  symbol : m.thunkSymbol v.pool = .ok entry.symbol
  declaration : v.layout.lower v.pool m = .ok entry.declaration
  body : ∀ f frame, entry.body = some f → entry.declaration.frame = some frame →
    f.frameSizes = [frame.size]

/-- A global belongs to what it is about. -/
def Belongs (v : Module) (symbol : String) : Global → Prop
  | .methodDescriptor m => m.descriptorSymbol v.pool = .ok symbol
  | .asyncPointer function size => symbol = asyncPointerSymbol function ∧
    ∃ m entry frame, v.thunks.get? m = some entry ∧ entry.symbol = function ∧
      entry.declaration.frame = some frame ∧ size = frame.size

/-- The globals say what the thunks and the descriptors are. -/
structure Recorded (refs : List Method) (v : Module) : Prop where
  mem : ∀ m entry, v.thunks.get? m = some entry → m ∈ refs
  thunks : ∀ m entry, v.thunks.get? m = some entry → v.IsDeclared m entry
  pointers : ∀ m entry, v.thunks.get? m = some entry → v.HasPointer entry
  globals : ∀ symbol g, v.globals.get? symbol = some g → v.Belongs symbol g

theorem IsDeclared.of_extends (h : v.IsDeclared m entry) (hlayout : v'.layout = v.layout)
    (hpool : v.pool.Extends v'.pool) : v'.IsDeclared m entry := by
  have hknown := Method.known_of_entitySymbol h.symbol
  refine ⟨entitySymbol_extends hpool h.symbol, ?_, h.body⟩
  rw [hlayout, hknown.lower_eq hpool]
  exact h.declaration

/-- More types, other look-up functions, or a counter that has moved on. -/
theorem Recorded.of_extends (h : v.Recorded refs) (hlayout : v'.layout = v.layout)
    (hpool : v.pool.Extends v'.pool) (hview : v'.thunks.view = v.thunks.view)
    (hglobals : v'.globals = v.globals) : v'.Recorded refs := by
  have hthunks : ∀ m, v'.thunks.get? m = v.thunks.get? m := fun m => by
    rw [Registry.get?_eq, Registry.get?_eq, hview]
  refine ⟨fun m entry hget => ?_, fun m entry hget => ?_, fun m entry hget => ?_,
    fun symbol g hg => ?_⟩
  · exact h.mem m entry (hthunks m ▸ hget)
  · exact (h.thunks m entry (hthunks m ▸ hget)).of_extends hlayout hpool
  · rw [HasPointer, hglobals]
    exact h.pointers m entry (hthunks m ▸ hget)
  · rw [hglobals] at hg
    have hbelongs := h.globals symbol g hg
    cases g with
    | methodDescriptor m => exact entitySymbol_extends hpool hbelongs
    | asyncPointer function size =>
      simp only [Belongs, hthunks]
      exact hbelongs

/-- The thunk of a method that has none yet: nothing stands at the symbol of its pointer. -/
theorem Recorded.free (h : v.Recorded refs) (hapart : ApartIn v.pool refs) (hm : m ∈ refs)
    (hget : v.thunks.get? m = none) (hsymbol : m.thunkSymbol v.pool = .ok symbol) :
    v.globals.get? (asyncPointerSymbol symbol) = none := by
  cases hg : v.globals.get? (asyncPointerSymbol symbol) with
  | none => rfl
  | some g =>
    have hbelongs := h.globals _ g hg
    cases g with
    | methodDescriptor m' =>
      have hlast := last?_entitySymbol hbelongs
      rw [last?_asyncPointerSymbol] at hlast
      exact absurd hlast (by decide)
    | asyncPointer function size =>
      obtain ⟨heq, m', entry, frame, hget', hfunction, -, -⟩ := hbelongs
      obtain rfl := asyncPointerSymbol_injective heq
      have hsymbol' := (h.thunks m' entry hget').symbol
      rw [hfunction] at hsymbol'
      obtain rfl := hapart m hm m' (h.mem m' entry hget') symbol hsymbol hsymbol'
      cases hget.symm.trans hget'

/-- Entries and globals that stay belong to each other as before. -/
theorem Belongs.mono (h : v.Belongs symbol g) (hpool : v'.pool = v.pool)
    (hthunks : ∀ m entry, v.thunks.get? m = some entry → ∃ entry', v'.thunks.get? m = some entry' ∧
      entry'.symbol = entry.symbol ∧ entry'.declaration = entry.declaration) :
    v'.Belongs symbol g := by
  cases g with
  | methodDescriptor m =>
    rw [Belongs, hpool]
    exact h
  | asyncPointer function size =>
    obtain ⟨hsymbol, m, entry, frame, hget, hfunction, hframe, hsize⟩ := h
    obtain ⟨entry', hget', hsymbol', hdeclaration⟩ := hthunks m entry hget
    exact ⟨hsymbol, m, entry', frame, hget', hsymbol'.trans hfunction, hdeclaration ▸ hframe,
      hsize⟩

theorem get?_withPointer (hg : v.globals.get? symbol = some g) :
    (v.withPointer entry).get? symbol = some g := by
  rw [withPointer]
  cases entry.declaration.frame with
  | none => exact hg
  | some frame => exact Table.get?_insertNew_of_some hg

/-- A new thunk, with its pointer. -/
theorem Recorded.declare (h : v.Recorded refs) (hapart : ApartIn v.pool refs) (hm : m ∈ refs)
    (hget : v.thunks.get? m = none) (hentry : v.IsDeclared m entry) :
    Recorded refs { v with
      thunks := v.thunks.add m entry, globals := v.withPointer entry } := by
  have hview := Registry.view_add hget entry
  have hfree := h.free hapart hm hget hentry.symbol
  have hpointer : ∀ frame, entry.declaration.frame = some frame →
      (v.withPointer entry).get? (asyncPointerSymbol entry.symbol)
        = some (.asyncPointer entry.symbol frame.size) := by
    intro frame hframe
    rw [withPointer, hframe]
    refine (Table.get?_insertNew _ _ _ _).trans ?_
    rw [if_pos rfl, hfree]
    rfl
  refine ⟨fun m' entry' h' => ?_, fun m' entry' h' => ?_, fun m' entry' h' => ?_,
    fun symbol g hg => ?_⟩
  · rcases Registry.get?_cases hview h' with ⟨rfl, rfl⟩ | hold
    · exact hm
    · exact h.mem m' entry' hold
  · rcases Registry.get?_cases hview h' with ⟨rfl, rfl⟩ | hold
    · exact ⟨hentry.symbol, hentry.declaration, hentry.body⟩
    · exact (h.thunks m' entry' hold).of_extends rfl (.refl _)
  · rcases Registry.get?_cases hview h' with ⟨rfl, rfl⟩ | hold
    · exact hpointer
    · exact fun frame hframe => get?_withPointer (h.pointers m' entry' hold frame hframe)
  · -- a global is an old one, or the new pointer
    have hkeeps : ∀ g, v.globals.get? symbol = some g →
        Belongs { v with thunks := v.thunks.add m entry, globals := v.withPointer entry }
          symbol g := by
      intro g hold
      refine (h.globals symbol g hold).mono rfl fun m' entry' h' => ⟨entry', ?_, rfl, rfl⟩
      refine (Registry.get?_of_view hview m').trans ((if_neg ?_).trans h')
      rintro rfl
      cases hget.symm.trans h'
    rw [withPointer] at hg
    cases hframe : entry.declaration.frame with
    | none =>
      rw [hframe] at hg
      exact hkeeps g hg
    | some frame =>
      rw [hframe] at hg
      rcases Table.get?_insertNew_cases hg with hold | ⟨rfl, rfl⟩
      · exact hkeeps g hold
      · exact ⟨rfl, m, entry, frame, Registry.get?_add hget entry, rfl, hframe, rfl⟩

/-- A thunk that gets its body. -/
theorem Recorded.define (h : v.Recorded refs) (hget : v.thunks.get? m = some entry)
    {f : Function}
    (hf : ∀ frame, entry.declaration.frame = some frame → f.frameSizes = [frame.size]) :
    Recorded refs { v with thunks := v.thunks.start.fill m f } := by
  have hview : (v.thunks.start.fill m f).view = v.thunks.view.insert m { entry with body := some f } :=
    Registry.view_start_fill hget f
  have hold := h.thunks m entry hget
  refine ⟨fun m' entry' h' => ?_, fun m' entry' h' => ?_, fun m' entry' h' => ?_,
    fun symbol g hg => ?_⟩
  · rcases Registry.get?_cases hview h' with ⟨rfl, rfl⟩ | h'
    · exact h.mem m' entry hget
    · exact h.mem m' entry' h'
  · rcases Registry.get?_cases hview h' with ⟨rfl, rfl⟩ | h'
    · refine ⟨hold.symbol, hold.declaration, fun f' frame hbody hframe => ?_⟩
      cases hbody
      exact hf frame hframe
    · exact (h.thunks m' entry' h').of_extends rfl (.refl _)
  · rcases Registry.get?_cases hview h' with ⟨rfl, rfl⟩ | h'
    · exact h.pointers m' entry hget
    · exact h.pointers m' entry' h'
  · refine (h.globals symbol g hg).mono rfl fun m' entry' h' => ?_
    by_cases heq : m = m'
    · subst heq
      cases hget.symm.trans h'
      exact ⟨_, Registry.get?_start_fill hget f, rfl, rfl⟩
    · exact ⟨entry', (Registry.get?_of_view hview m').trans ((if_neg heq).trans h'), rfl, rfl⟩

/-- A descriptor of its own method. -/
theorem Recorded.describe (h : v.Recorded refs) (hsymbol : m.descriptorSymbol v.pool = .ok symbol) :
    Recorded refs { v with globals := v.globals.insertNew symbol (.methodDescriptor m) } := by
  refine ⟨h.mem, fun m' entry' h' => (h.thunks m' entry' h').of_extends rfl (.refl _),
    fun m' entry' h' frame hframe =>
      Table.get?_insertNew_of_some (h.pointers m' entry' h' frame hframe),
    fun symbol' g hg => ?_⟩
  rcases Table.get?_insertNew_cases hg with hold | ⟨rfl, rfl⟩
  · exact (h.globals symbol' g hold).mono rfl fun m' entry' h' => ⟨entry', h', rfl, rfl⟩
  · exact hsymbol

/-! ### Steps of generation -/

/-- What every step of generation does: types and globals come in but never change, and the
globals still say what the thunks are, if the thunk symbols of the methods differ. -/
structure Advances (refs : List Method) (v v' : Module) : Prop where
  distinct : v'.pool.Distinct
  pool : v.pool.Extends v'.pool
  globals : ∀ symbol g, v.globals.get? symbol = some g → v'.globals.get? symbol = some g
  recorded : ApartIn v'.pool refs → v.Recorded refs → v'.Recorded refs

theorem Advances.refl (hv : v.pool.Distinct) : Advances refs v v :=
  ⟨hv, .refl _, fun _ _ h => h, fun _ h => h⟩

theorem Advances.trans {v'' : Module} (h : Advances refs v v') (h' : Advances refs v' v'') :
    Advances refs v v'' where
  distinct := h'.distinct
  pool := h.pool.trans h'.pool
  globals symbol g hg := h'.globals symbol g (h.globals symbol g hg)
  recorded hapart hv := h'.recorded hapart (h.recorded (hapart.of_extends h'.pool) hv)

/-- A step that changes neither the thunks nor the globals. -/
theorem Advances.of_extends (hdistinct : v'.pool.Distinct) (hlayout : v'.layout = v.layout)
    (hpool : v.pool.Extends v'.pool) (hview : v'.thunks.view = v.thunks.view)
    (hglobals : v'.globals = v.globals) : Advances refs v v' where
  distinct := hdistinct
  pool := hpool
  globals _ _ hg := hglobals ▸ hg
  recorded _ hv := hv.of_extends hlayout hpool hview hglobals

theorem Advances.of_grows (h : v.Grows v') : Advances refs v v' := by
  refine .of_extends h.distinct ?_ h.pool ?_ ?_ <;> rw [h.rest]

/-- However the step ends, it does what every step of generation does. -/
def Advancing {α : Type} (refs : List Method) (x : Generate α) (v : Module) : Prop :=
  Step.Ends x v (fun _ v' => Advances refs v v') fun _ v' => Advances refs v v'

section Advancing

variable {α β : Type} {x : Generate α} {f : α → Generate β}

theorem Advancing.bind (hx : Advancing refs x v)
    (hf : ∀ a v', v'.pool.Distinct → Advancing refs (f a) v') :
    Advancing refs (x >>= f) v :=
  Step.Ends.bind_rel hx (fun a v' h => hf a v' h.distinct) fun _ _ h h' => h.trans h'

theorem advancing_pure (hv : v.pool.Distinct) (a : α) : Advancing refs (pure a) v := .refl hv

theorem advancing_liftM (hv : v.pool.Distinct) (attempt : Attempt α) :
    Advancing refs (liftM attempt) v := by
  cases attempt <;> exact .refl hv

theorem advancing_get (hv : v.pool.Distinct) : Advancing refs get v := .refl hv

theorem advancing_mapM {g : β → Generate α} (l : List β)
    (h : ∀ b ∈ l, ∀ v : Module, v.pool.Distinct → Advancing refs (g b) v)
    (hv : v.pool.Distinct) : Advancing refs (l.mapM g) v := by
  induction l generalizing v with
  | nil => exact advancing_pure hv []
  | cons b rest ih =>
    rw [List.mapM_cons]
    refine (h b List.mem_cons_self v hv).bind fun a v' hv' => ?_
    refine (ih (fun b hb => h b (List.mem_cons_of_mem _ hb)) hv').bind fun _ v'' hv'' => ?_
    exact advancing_pure hv'' _

end Advancing

/-! ### Thunks -/

/-- The pointer of an entry is asked for again. -/
theorem advances_withPointer (hv : v.pool.Distinct) (hget : v.thunks.get? m = some entry) :
    Advances refs v { v with globals := v.withPointer entry } := by
  refine ⟨hv, .refl _, fun _ _ hg => get?_withPointer hg, fun _ hr => ?_⟩
  rw [(hr.pointers m entry hget).withPointer]
  exact hr

/-- Declaring a thunk gives its entry, with its async function pointer. -/
theorem advances_declareThunk (hm : m ∈ refs) (hv : v.pool.Distinct) :
    Step.Ends (declareThunk m) v
      (fun entry v' => Advances refs v v' ∧ v'.thunks.get? m = some entry)
      fun _ v' => v' = v := by
  -- the registry has the entry; what is left is its pointer
  have hpointer : ∀ (entry : Entry Lowered) (v₁ : Module), v₁.thunks.get? m = some entry →
      Advances refs v { v₁ with globals := v₁.withPointer entry } →
      Step.Ends (do definePointer entry.symbol entry.declaration.frame; return entry : Generate _)
        v₁ (fun entry v' => Advances refs v v' ∧ v'.thunks.get? m = some entry)
        fun _ v' => v' = v := fun entry v₁ hget h =>
    Step.ends_bind.mpr (Step.ends_of_ok (run_definePointer v₁ entry) ⟨h, hget⟩)
  rw [declareThunk, Step.ends_bind, Step.ends_get, Registry.declare]
  cases hget : v.thunks.get? m with
  | some entry => exact hpointer entry v hget (advances_withPointer hv hget)
  | none =>
    cases hd : v.thunkDeclaration m with
    | error fault => exact rfl
    | ok r =>
      obtain ⟨symbol, s⟩ := r
      obtain ⟨hsymbol, hs⟩ := thunkDeclaration_eq_ok.mp hd
      have hentry : v.IsDeclared m { symbol, declaration := s } := by
        refine ⟨hsymbol, hs, ?_⟩
        intro _ _ hbody
        cases hbody
      refine hpointer { symbol, declaration := s } _ (Registry.get?_add hget _)
        ⟨hv, .refl _, fun _ _ hg => get?_withPointer hg, fun hapart hr => ?_⟩
      exact hr.declare hapart hm hget hentry

/-- Whatever signature a body is planned for, generating it defines at most a global. -/
theorem ends_emitPlanned (plan : ThunkPlan) (symbol : String) :
    Step.Ends (emitPlanned plan symbol) v
      (fun _ v' => ∃ globals, v' = { v with globals } ∧
        ∀ symbol g, v.globals.get? symbol = some g → globals.get? symbol = some g)
      fun _ v' => ∃ globals, v' = { v with globals } ∧
        ∀ symbol g, v.globals.get? symbol = some g → globals.get? symbol = some g := by
  rw [emitPlanned, Step.ends_bind]
  refine Step.ends_liftM.mpr ⟨fun entered _ => ?_, fun _ _ => ⟨_, rfl, fun _ _ hg => hg⟩⟩
  obtain ⟨⟨convention, params⟩, b⟩ := entered
  rw [Step.ends_bind]
  cases convention.frame? with
  | none =>
    refine Step.ends_bind.mpr (Step.ends_get.mpr (Step.ends_bind.mpr (Step.ends_liftM.mpr ?_)))
    exact ⟨fun _ _ => ⟨_, rfl, fun _ _ hg => hg⟩, fun _ _ => ⟨_, rfl, fun _ _ hg => hg⟩⟩
  | some frame =>
    refine Step.ends_modify.mpr
      (Step.ends_bind.mpr (Step.ends_get.mpr (Step.ends_bind.mpr (Step.ends_liftM.mpr ?_))))
    exact ⟨fun _ _ => ⟨_, rfl, fun _ _ => Table.get?_insertNew_of_some⟩,
      fun _ _ => ⟨_, rfl, fun _ _ => Table.get?_insertNew_of_some⟩⟩

/-- Generating the body of a declared thunk asks for its pointer again, and the body attaches
the frame of the signature. -/
theorem advances_emitThunk (hv : v.pool.Distinct) (hget : v.thunks.get? m = some entry) :
    Step.Ends (emitThunk m entry) v
      (fun f v' => Advances refs v v' ∧ v'.thunks = v.thunks ∧
        (entry.declaration.frame.isSome = entry.declaration.convention.isAsync →
          ∀ frame, entry.declaration.frame = some frame → f.frameSizes = [frame.size]))
      fun _ v' => Advances refs v v' ∧ v'.thunks = v.thunks := by
  rw [emitThunk, Step.ends_bind]
  refine (ends_planThunk hv m entry.declaration).imp (fun plan v₁ h₁ => ?_)
    fun _ v₁ h₁ => ⟨.of_grows h₁.1, by rw [h₁.1.rest]⟩
  obtain ⟨rfl, hgrows⟩ := h₁
  have hthunks : v₁.thunks = v.thunks := by rw [hgrows.rest]
  have hplanned : Advances refs v v₁ := .of_grows hgrows
  by_cases hframed : entry.declaration.frame.isSome = entry.declaration.convention.isAsync
  · have hadvances : Advances refs v { v₁ with globals := v₁.withPointer entry } :=
      hplanned.trans (advances_withPointer hgrows.distinct (hthunks ▸ hget))
    rw [emitPlanned_eq hframed, Step.ends_bind]
    refine Step.ends_of_ok (run_definePointer _ entry) ?_
    refine Step.ends_bind.mpr (Step.ends_get.mpr (Step.ends_liftM.mpr
      ⟨fun f hf => ⟨hadvances, hthunks, fun _ frame hframe => ?_⟩, fun _ _ => ⟨hadvances, hthunks⟩⟩))
    rw [hframe] at hframed
    exact Thunk.frameSizes_of_function (Convention.eq_async hframed.symm) hframe hf
  · -- an entry that is recorded has the signature of its method
    have hadvances : ∀ globals, (∀ symbol g, v₁.globals.get? symbol = some g →
        globals.get? symbol = some g) → Advances refs v { v₁ with globals } :=
      fun globals hkeeps => ⟨hgrows.distinct, hgrows.pool, fun symbol g hg =>
        hkeeps symbol g (hplanned.globals symbol g hg),
        fun _ hr => absurd (Layout.isSome_frame_of_lower (hr.thunks m entry hget).declaration)
          hframed⟩
    refine (ends_emitPlanned _ _).imp (fun f v' h' => ?_) fun _ v' h' => ?_
    · obtain ⟨globals, rfl, hkeeps⟩ := h'
      exact ⟨hadvances globals hkeeps, hthunks, fun h => absurd h hframed⟩
    · obtain ⟨globals, rfl, hkeeps⟩ := h'
      exact ⟨hadvances globals hkeeps, hthunks⟩

theorem advances_defineThunk (hm : m ∈ refs) (hv : v.pool.Distinct) :
    Advancing refs (defineThunk m) v := by
  rw [Advancing, defineThunk_eq, Step.ends_bind]
  refine (advances_declareThunk hm hv).imp (fun entry v₁ h₁ => ?_) ?_
  case refine_2 =>
    rintro - _ rfl
    exact .refl hv
  obtain ⟨hadvances, hget⟩ := h₁
  cases hbody : entry.body with
  | some body => exact hadvances
  | none =>
    simp only [Step.ends_bind, Step.ends_observe]
    refine (@advances_emitThunk _ refs _ _ hadvances.distinct hget).imp (fun f v₂ h₂ => ?_)
      fun fault v₂ h₂ => ?_
    · obtain ⟨hemitted, hthunks, hf⟩ := h₂
      have hget₂ : v₂.thunks.get? m = some entry := hthunks ▸ hget
      rw [Step.ends_get, Registry.define, hget₂]
      simp only [hbody, Step.ends_set, Step.ends_liftM_ok]
      refine (hadvances.trans hemitted).trans
        ⟨hemitted.distinct, .refl _, fun _ _ hg => hg, fun _ hr => hr.define hget₂ ?_⟩
      exact hf (Layout.isSome_frame_of_lower (hr.thunks m entry hget₂).declaration)
    · obtain ⟨hemitted, hthunks⟩ := h₂
      have hget₂ : v₂.thunks.get? m = some entry := hthunks ▸ hget
      rw [Step.ends_get, Registry.define, hget₂]
      simp only [hbody, Step.ends_set, Step.ends_liftM_error]
      exact (hadvances.trans hemitted).trans (.of_extends hemitted.distinct rfl (.refl _) rfl rfl)

/-! ### Descriptors and look-up functions -/

theorem advances_declareDescriptor (m : Method) (hv : v.pool.Distinct) :
    Advancing refs (declareDescriptor m) v := by
  have hdefine : Advancing refs (do
      let symbol ← (m.descriptorSymbol v.pool : Attempt String)
      defineGlobal symbol (.methodDescriptor m)
      return symbol : Generate String) v := by
    cases hsymbol : m.descriptorSymbol v.pool with
    | error fault => exact .refl hv
    | ok symbol =>
      exact ⟨hv, .refl _, fun _ _ hg => Table.get?_insertNew_of_some hg,
        fun _ hr => hr.describe hsymbol⟩
  rw [Advancing, declareDescriptor, Step.ends_bind, Step.ends_get]
  cases m.isWitness with
  | true => exact hdefine
  | false =>
    refine Step.ends_bind.mpr (Step.ends_liftM.mpr ⟨fun introduces _ => ?_, fun _ _ => .refl hv⟩)
    cases introduces with
    | true => exact hdefine
    | false => exact .refl hv

theorem advances_candidate (c : ClassMethod) (hv : v.pool.Distinct) :
    Advancing refs (candidate c) v := by
  rw [candidate]
  refine (advances_declareDescriptor _ hv).bind fun _ v₁ hv₁ => ?_
  refine (advancing_get hv₁).bind fun u v₂ hv₂ => ?_
  cases u.options.signingKey with
  | none => exact (advancing_pure hv₂ none).bind fun _ _ hv₃ => advancing_pure hv₃ _
  | some key =>
    rw [Option.mapM_some, map_eq_pure_bind]
    refine Advancing.bind ?_ fun _ _ hv₃ => advancing_pure hv₃ _
    exact (advancing_liftM hv₂ _).bind fun _ _ hv₃ => advancing_pure hv₃ _

theorem advances_emitLookup (lookup : Entry Unit) (hv : v.pool.Distinct) :
    Advancing refs (emitLookup className lookup) v := by
  rw [emitLookup, planLookup]
  refine Advancing.bind ?_ fun _ _ hv' => advancing_liftM hv' _
  refine (advancing_get hv).bind fun u v₁ hv₁ => (advancing_liftM hv₁ _).bind fun _ v₂ hv₂ => ?_
  refine (advancing_mapM _ (fun c _ v hv => advances_candidate c hv) hv₂).bind fun _ v₃ hv₃ => ?_
  exact (advancing_liftM hv₃ _).bind fun _ _ hv₄ => advancing_pure hv₄ _

theorem advances_declareLookup (hv : v.pool.Distinct) :
    Advancing refs (declareLookup className) v := by
  rw [Advancing, declareLookup, Step.ends_bind, Step.ends_get]
  simp only [Registry.declare]
  cases v.lookups.get? className <;> exact .of_extends hv rfl (.refl _) rfl rfl

theorem advances_defineLookup (hv : v.pool.Distinct) :
    Advancing refs (defineLookup className) v := by
  have hdefine : ∀ (emitted : Attempt Function) (v : Module), v.pool.Distinct →
      Advancing refs (do
        let u ← get
        let defined := u.lookups.define className emitted
        set { u with lookups := defined.2 }
        defined.1 : Generate Function) v := by
    intro emitted v hv
    rw [Advancing, Step.ends_bind, Step.ends_get]
    obtain ⟨body, lookups⟩ := v.lookups.define className emitted
    cases body <;> exact .of_extends hv rfl (.refl _) rfl rfl
  rw [defineLookup_eq]
  refine (advances_declareLookup hv).bind fun lookup v₁ hv₁ => ?_
  cases lookup.body with
  | some body => exact advancing_pure hv₁ body
  | none =>
    refine Advancing.bind ?_ fun emitted v₂ hv₂ => hdefine emitted v₂ hv₂
    rw [Advancing, Step.ends_observe]
    exact advances_emitLookup lookup hv₁

/-! ### Requests -/

/-- The methods whose thunks a request declares. -/
def Query.methods : Query → List Method
  | declareThunk m => [m]
  | defineThunk m => [m]
  | emitThunks methods => methods
  | asyncPointer m => [m]
  | _ => []

/-- A request does what every step does, whether or not it fails. -/
theorem Query.advances (query : Query)
    (hrefs : ∀ m ∈ query.methods, m ∈ refs) (hv : v.pool.Distinct) :
    Advances refs v (query.ask.final v) := by
  refine Step.Ends.final (P := Advances refs v) ?_
  have hdeclare : ∀ m ∈ refs, Advancing refs (Module.declareThunk m) v := fun m hm =>
    (advances_declareThunk hm hv).imp (fun _ _ h => h.1) fun _ v' h => by
      subst h
      exact .refl hv
  cases query with
  | intern shape =>
    rw [Query.ask, Step.ends_map, withPool, Step.ends_zoom]
    refine (Pool.ends_intern hv shape).imp (fun id q hq => ?_) fun _ _ hq => hq.elim
    exact .of_extends hq.2.1 rfl hq.1 rfl rfl
  | declareThunk m => exact Step.ends_map.mpr (hdeclare m (hrefs m List.mem_cons_self))
  | defineThunk m =>
    exact Step.ends_map.mpr (advances_defineThunk (hrefs m List.mem_cons_self) hv)
  | emitThunks methods =>
    refine Step.ends_map.mpr (advancing_mapM methods (fun m hm v hv => ?_) hv)
    exact advances_defineThunk (hrefs m hm) hv
  | asyncPointer m =>
    rw [Query.ask, Step.ends_map, Module.asyncPointer]
    split
    · rw [Step.ends_bind]
      exact hdeclare m (hrefs m List.mem_cons_self)
    · exact .refl hv
  | declareDescriptor m => exact Step.ends_map.mpr (advances_declareDescriptor m hv)
  | declareLookup className => exact Step.ends_map.mpr (advances_declareLookup hv)
  | defineLookup className => exact Step.ends_map.mpr (advances_defineLookup hv)

/-- Any number of requests. -/
theorem advances_after (queries : List Query)
    (hrefs : ∀ query ∈ queries, ∀ m ∈ query.methods, m ∈ refs) (hv : v.pool.Distinct) :
    Advances refs v (v.after queries) := by
  induction queries generalizing v with
  | nil => exact .refl hv
  | cons query rest ih =>
    have hone := query.advances (hrefs query List.mem_cons_self) hv
    exact hone.trans (ih (fun q hq => hrefs q (List.mem_cons_of_mem _ hq)) hone.distinct)

/-- A module for which neither thunks nor globals have been generated. -/
structure Blank (u : Module) : Prop where
  pool : u.pool.Distinct
  thunks : u.thunks.cells = []
  globals : u.globals.entries = []

theorem Blank.recorded (hu : u.Blank) : u.Recorded refs := by
  have hnone : ∀ m, u.thunks.get? m = none := Registry.get?_of_cells_nil hu.thunks
  refine ⟨?_, ?_, ?_, ?_⟩
  · intro m entry hget
    cases (hnone m).symm.trans hget
  · intro m entry hget
    cases (hnone m).symm.trans hget
  · intro m entry hget
    cases (hnone m).symm.trans hget
  · intro symbol g hg
    cases (Table.get?_of_entries_nil hu.globals symbol).symm.trans hg

theorem Blank.advances_after (hu : u.Blank) (queries : List Query) :
    Advances (queries.flatMap Query.methods) u (u.after queries) :=
  Module.advances_after queries (fun _ hq _ hm => List.mem_flatMap.mpr ⟨_, hq, hm⟩) hu.pool

/-- After any requests, if the methods whose thunks were asked for have different thunk
symbols. -/
theorem Blank.recorded_after (hu : u.Blank) (queries : List Query)
    (hapart : ApartIn (u.after queries).pool (queries.flatMap Query.methods)) :
    (u.after queries).Recorded (queries.flatMap Query.methods) :=
  (hu.advances_after queries).recorded hapart hu.recorded

/-- Globals stay what they are, whatever is asked next. -/
theorem Blank.globals_after (hu : u.Blank) (before more : List Query)
    (hg : (u.after before).globals.get? symbol = some g) :
    (u.after (before ++ more)).globals.get? symbol = some g := by
  have happend : u.after (before ++ more) = (u.after before).after more := List.foldl_append
  have hmore := Module.advances_after more
    (fun _ hq _ hm => List.mem_flatMap.mpr ⟨_, hq, hm⟩) (hu.advances_after before).distinct
  rw [happend]
  exact hmore.globals symbol g hg

/-- The function of an async function pointer is the thunk of an asynchronous method. -/
theorem Recorded.functionOfPointer?_eq_some (h : v.Recorded refs) {function : String} :
    v.functionOfPointer? symbol = some function ↔
      ∃ m entry, v.thunks.get? m = some entry ∧ m.convention.isAsync = true ∧
        entry.symbol = function ∧ symbol = asyncPointerSymbol function := by
  have hframe : ∀ m entry, v.thunks.get? m = some entry →
      (m.convention.isAsync = true ↔ ∃ frame, entry.declaration.frame = some frame) := by
    intro m entry hget
    rcases (Layout.lowers_of_lower (h.thunks m entry hget).declaration).frame with
      ⟨hflat, hnone⟩ | ⟨frame, hasync, -, hsome⟩
    · rw [hflat, hnone]
      exact iff_of_false nofun nofun
    · exact iff_of_true hasync ⟨frame, hsome⟩
  constructor
  · intro hfunction
    rw [functionOfPointer?] at hfunction
    split at hfunction
    · next function' size hg =>
      obtain rfl := Option.some.inj hfunction
      obtain ⟨hsymbol, m, entry, frame, hget, heq, hsome, -⟩ := h.globals symbol _ hg
      exact ⟨m, entry, hget, (hframe m entry hget).mpr ⟨frame, hsome⟩, heq, hsymbol⟩
    · cases hfunction
  · rintro ⟨m, entry, hget, hasync, rfl, rfl⟩
    obtain ⟨frame, hsome⟩ := (hframe m entry hget).mp hasync
    rw [functionOfPointer?, h.pointers m entry hget frame hsome]

/-- After any requests, made of a module for which nothing has been generated and for methods
whose thunk symbols differ: a thunk that is declared has an entry, and the async function
pointer of every asynchronous thunk with an entry is there, whether or not the thunk has a
body, and it stays.  It gives the size of the frame that
the layout of the target gives the method, and that the body attaches.  There are no other
async function pointers, and every method descriptor has the symbol of its method. -/
theorem pointer_records (hu : u.Blank) (before more : List Query)
    (hapart : ApartIn (u.after before).pool (before.flatMap Query.methods)) :
    (∀ m entry w, declareThunk m (u.after before) = .ok entry w → w.thunks.get? m = some entry) ∧
    (∀ m entry, (u.after before).thunks.get? m = some entry → m.convention.isAsync = true →
      m.thunkSymbol (u.after before).pool = .ok entry.symbol ∧
      ∃ frame, (u.after before).layout.frame (u.after before).pool m = .ok frame ∧
        (u.after before).globals.get? (asyncPointerSymbol entry.symbol) =
          some (.asyncPointer entry.symbol frame.size) ∧
        (u.after (before ++ more)).globals.get? (asyncPointerSymbol entry.symbol) =
          some (.asyncPointer entry.symbol frame.size) ∧
        ∀ f, entry.body = some f → f.frameSizes = [frame.size]) ∧
    (∀ symbol function, (u.after before).functionOfPointer? symbol = some function ↔
      ∃ m entry, (u.after before).thunks.get? m = some entry ∧ m.convention.isAsync = true ∧
        entry.symbol = function ∧ symbol = asyncPointerSymbol function) ∧
    ∀ symbol m, (u.after before).globals.get? symbol = some (.methodDescriptor m) →
      m.descriptorSymbol (u.after before).pool = .ok symbol := by
  have hrecorded := hu.recorded_after before hapart
  have hdistinct := (hu.advances_after before).distinct
  refine ⟨fun m entry w hrun => ?_, fun m entry hget hasync => ?_,
    fun _ _ => hrecorded.functionOfPointer?_eq_some,
    fun symbol m hg => hrecorded.globals symbol _ hg⟩
  · exact ((advances_declareThunk (List.mem_singleton_self m) hdistinct).ok hrun).2
  have hdeclared := hrecorded.thunks m entry hget
  rcases (Layout.lowers_of_lower hdeclared.declaration).frame with
    ⟨hflat, -⟩ | ⟨frame, -, hframe, hsome⟩
  · rw [hasync] at hflat
    cases hflat
  · have hpointer := hrecorded.pointers m entry hget frame hsome
    exact ⟨hdeclared.symbol, frame, hframe, hpointer, hu.globals_after before more hpointer,
      fun f hbody => hdeclared.body f frame hbody hsome⟩

end Module

namespace Shapes

/-- The outline of a shape is declared, and then defined. -/
def outlined : List Module.Query :=
  [.asyncPointer outline, .declareDescriptor area, .defineThunk outline]

/-- The pointer of the outline says what the body says, and is still there when a look-up
function has been generated. -/
theorem pointer_records_outline :
    unit.Blank ∧ Module.ApartIn (unit.after outlined).pool (outlined.flatMap Module.Query.methods) ∧
    ∃ entry f, (unit.after outlined).thunks.get? outline = some entry ∧ entry.body = some f ∧
      f.frameSizes = [56] ∧
      (unit.after outlined).functionOfPointer? (asyncPointerSymbol entry.symbol) =
        some entry.symbol ∧
      (unit.after (outlined ++ [.defineLookup "Shape"])).globals.get?
        (asyncPointerSymbol entry.symbol) = some (.asyncPointer entry.symbol 56) := by
  have hcoherent := coherent_unit
  have hblank : unit.Blank := ⟨hcoherent.pool, hcoherent.thunks, hcoherent.globals⟩
  have hone : ∀ m ∈ outlined.flatMap Module.Query.methods, m = outline := by decide
  have hapart : Module.ApartIn (unit.after outlined).pool
      (outlined.flatMap Module.Query.methods) :=
    fun m hm m' hm' _ _ _ => (hone m hm).trans (hone m' hm').symm
  obtain ⟨-, hasync, hfunction, -⟩ :=
    Module.pointer_records hblank outlined [.defineLookup "Shape"] hapart
  have hdefined : (((unit.after outlined).thunks.get? outline).bind Entry.body).isSome = true ∧
      ((unit.after outlined).layout.frame (unit.after outlined).pool outline).toOption.map
        Frame.size = some 56 ∧ outline.convention.isAsync = true := by
    decide +kernel
  obtain ⟨hbody, hsize, hconvention⟩ := hdefined
  obtain ⟨f, hf⟩ := Option.isSome_iff_exists.mp hbody
  obtain ⟨entry, hget, hbody⟩ := Option.bind_eq_some_iff.mp hf
  obtain ⟨-, frame, hframe, -, hlater, hsizes⟩ := hasync outline entry hget hconvention
  rw [hframe] at hsize
  have hsize : frame.size = 56 := Option.some.inj hsize
  rw [hsize] at hlater hsizes
  exact ⟨hblank, hapart, entry, f, hget, hbody, hsizes f hbody,
    (hfunction _ _).mpr ⟨outline, entry, hget, hconvention, rfl, rfl⟩, hlater⟩

end Shapes

end Dispatch
